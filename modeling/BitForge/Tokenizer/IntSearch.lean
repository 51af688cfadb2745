/-
The binary searches of `tokenizer_lookup` and `tokenizer_find_id` in the `int`s of the source: the bounds, the middle
and every access. The two compute the middle in two ways, and the sum of `tokenizer_find_id` overflows in an index of
more than `2 ^ 30` entries.
-/
import BitForge.Tokenizer.VocabIndex

namespace BitForge.Tokenizer

open Lib

/-- The value that an `int` holds after an operation with this result. -/
def wrapInt (x : Int) : Int := x.bmod (2 ^ 32)

theorem wrapInt_eq {x : Int} (hlo : -(2 ^ 31) ≤ x) (hhi : x < 2 ^ 31) : wrapInt x = x := by
  unfold wrapInt
  rw [Int.bmod_def]
  split <;> omega

/-- A sum of two `int`s that overflows is negative. -/
theorem wrapInt_overflow {x : Int} (hlo : 2 ^ 31 ≤ x) (hhi : x < 2 ^ 32) : wrapInt x = x - 2 ^ 32 := by
  unfold wrapInt
  rw [Int.bmod_def]
  split <;> omega

/-- How a search ends. -/
inductive SearchEnd
  | found (id : Nat)
  | absent
  /-- an access outside an array -/
  | outside (i : Int)
  /-- still running after the steps that are allowed -/
  | running
deriving DecidableEq, Repr

/-- The loop of the two searches; `midOf` is their middle and `cmpOf` compares the argument with a string. -/
def searchInts (midOf : Int → Int → Int) (cmpOf : List UInt8 → Int) (vocab : List (List UInt8)) (indices : List Nat) :
    Nat → Int → Int → SearchEnd
  | 0, _, _ => .running
  | fuel + 1, lo, hi =>
    if lo ≤ hi then
      let mid := midOf lo hi
      if mid < 0 then .outside mid
      else
        match indices[mid.toNat]? with
        | none => .outside mid
        | some idx =>
          match vocab[idx]? with
          | none => .outside idx
          | some s =>
            if cmpOf s = 0 then .found idx
            else if cmpOf s < 0 then searchInts midOf cmpOf vocab indices fuel lo (wrapInt (mid - 1))
            else searchInts midOf cmpOf vocab indices fuel (wrapInt (mid + 1)) hi
    else .absent

/-- `lo + (hi - lo) / 2`. -/
def midOfDifference (lo hi : Int) : Int := wrapInt (lo + (wrapInt (hi - lo)).tdiv 2)

/-- `(lo + hi) / 2`. -/
def midOfSum (lo hi : Int) : Int := (wrapInt (lo + hi)).tdiv 2

/-- `tokenizer_lookup`. -/
def tokenizerLookup (vocab : List (List UInt8)) (indices : List Nat) (str : List UInt8) : SearchEnd :=
  searchInts midOfDifference (strcmp str) vocab indices (vocab.length + 1) 0 (wrapInt (vocab.length - 1))

/-- `tokenizer_find_id`, which compares the other way round. -/
def tokenizerFindId (vocab : List (List UInt8)) (indices : List Nat) (str : List UInt8) : SearchEnd :=
  searchInts midOfSum (fun s => -strcmp s str) vocab indices (vocab.length + 1) 0 (wrapInt (vocab.length - 1))

/-- The search of a string: a position of it, or that it is absent. -/
def Finds (vocab : List (List UInt8)) (str : List UInt8) (r : SearchEnd) : Prop :=
  (∃ id, r = .found id ∧ vocab[id]? = some str) ∨ r = .absent ∧ str ∉ vocab

/-- What the index of a vocabulary is for: it is built, sorted, and both searches in it find every string. -/
def IndexCorrect (vocab : List (List UInt8)) : Prop :=
  ∃ indices, buildSortedIndex vocab vocab.length = some indices ∧ indices.Perm (List.range vocab.length) ∧
    SortedBy (vocabCmp vocab) indices ∧
    ∀ str, Finds vocab str (tokenizerLookup vocab indices str) ∧ Finds vocab str (tokenizerFindId vocab indices str)

section

variable {vocab : List (List UInt8)} (ix : VocabIndex vocab vocab.length)

theorem VocabIndex.entry {k : Nat} (hk : k < vocab.length) :
    ∃ idx s, ix.indices[k]? = some idx ∧ ix.indices.getD k 0 = idx ∧ vocab[idx]? = some s ∧ vocab.getD idx [] = s := by
  have hlen := ix.length_indices
  have hget : ix.indices[k]? = some ix.indices[k] := List.getElem?_eq_getElem (by omega)
  have hidx : ix.indices.getD k 0 = ix.indices[k] := by rw [List.getD_eq_getElem?_getD, hget, Option.getD_some]
  have hlt : ix.indices[k] < vocab.length := hidx ▸ ix.getD_lt hk
  have hs : vocab[ix.indices[k]]? = some vocab[ix.indices[k]] := List.getElem?_eq_getElem hlt
  exact ⟨_, _, hget, hidx, hs, by rw [List.getD_eq_getElem?_getD, hs, Option.getD_some]⟩

/-- Where the middle of the bounds is right, the search is the one on natural numbers. -/
theorem searchInts_eq {midOf : Int → Int → Int} (hn : vocab.length < 2 ^ 31)
    (hmid : ∀ lo hi : Nat, lo ≤ hi → hi < vocab.length → midOf lo hi = (lo + (hi - lo) / 2 : Nat))
    (cmpOf : List UInt8 → Int) : ∀ (fuel lo hi : Nat), hi ≤ vocab.length → hi - lo ≤ fuel → lo ≤ hi →
      searchInts midOf cmpOf vocab ix.indices (fuel + 1) lo (hi - 1) =
        match searchLoop (fun mid => cmpOf (vocab.getD (ix.indices.getD mid 0) [])) fuel lo hi with
        | some mid => .found (ix.indices.getD mid 0)
        | none => .absent
  | 0, lo, hi, _, hfuel, hle => by
    rw [searchInts, if_neg (by omega), searchLoop]
  | fuel + 1, lo, hi, hhi, hfuel, hle => by
    by_cases hlt : lo < hi
    · have hm := hmid lo (hi - 1) (by omega) (by omega)
      rw [Int.natCast_sub (by omega), Int.natCast_one] at hm
      obtain ⟨idx, s, hget, hidx, hs, hsd⟩ := ix.entry (k := lo + (hi - 1 - lo) / 2) (by omega)
      rw [searchInts, if_pos (by omega), searchLoop, if_pos hlt]
      dsimp only
      rw [hm, if_neg (by omega), Int.toNat_natCast, hget, hidx, hsd]
      dsimp only
      rw [hs]
      dsimp only
      by_cases h0 : cmpOf s = 0
      · rw [if_pos h0, if_pos h0]
        dsimp only
        rw [hidx]
      rw [if_neg h0, if_neg h0]
      by_cases hneg : cmpOf s < 0
      · rw [if_pos hneg, if_pos hneg, wrapInt_eq (by omega) (by omega)]
        exact searchInts_eq hn hmid cmpOf fuel lo (lo + (hi - 1 - lo) / 2) (by omega) (by omega) (by omega)
      · rw [if_neg hneg, if_neg hneg, wrapInt_eq (by omega) (by omega)]
        exact searchInts_eq hn hmid cmpOf fuel (lo + (hi - 1 - lo) / 2 + 1) hi hhi (by omega) (by omega)
    · rw [searchInts, if_neg (by omega), searchLoop, if_neg hlt]

theorem VocabIndex.finds (str : List UInt8) :
    Finds vocab str (match ix.lookup str with | some id => .found id | none => .absent) := by
  cases h : ix.lookup str with
  | some id =>
    obtain ⟨hlt, heq⟩ := ix.lookup_some h
    refine .inl ⟨id, rfl, ?_⟩
    rw [List.getD_eq_getElem?_getD, List.getElem?_eq_getElem hlt, Option.getD_some] at heq
    rw [List.getElem?_eq_getElem hlt, heq]
  | none =>
    refine .inr ⟨rfl, fun hmem => ?_⟩
    obtain ⟨id, hid⟩ := List.mem_iff_getElem?.1 hmem
    have hlt := (List.getElem?_eq_some_iff.1 hid).1
    exact ix.lookup_none h hlt (by rw [List.getD_eq_getElem?_getD, hid, Option.getD_some])

theorem midOfDifference_eq (hn : vocab.length < 2 ^ 31) (lo hi : Nat) (hle : lo ≤ hi) (hhi : hi < vocab.length) :
    midOfDifference lo hi = (lo + (hi - lo) / 2 : Nat) := by
  have hdiff : wrapInt ((hi : Int) - lo) = hi - lo := wrapInt_eq (by omega) (by omega)
  unfold midOfDifference
  rw [hdiff, Int.tdiv_eq_ediv_of_nonneg (by omega), wrapInt_eq (by omega) (by omega)]
  omega

theorem midOfSum_eq (hn : vocab.length ≤ 2 ^ 30) (lo hi : Nat) (hle : lo ≤ hi) (hhi : hi < vocab.length) :
    midOfSum lo hi = (lo + (hi - lo) / 2 : Nat) := by
  unfold midOfSum
  rw [wrapInt_eq (by omega) (by omega), Int.tdiv_eq_ediv_of_nonneg (by omega)]
  omega

theorem tokenizerLookup_finds (hne : 1 ≤ vocab.length) (hn : vocab.length < 2 ^ 31) (str : List UInt8) :
    Finds vocab str (tokenizerLookup vocab ix.indices str) := by
  have heq := searchInts_eq ix hn (midOfDifference_eq hn) (strcmp str) vocab.length 0 vocab.length (le_refl _) (by omega)
    (by omega)
  have hfinds := ix.finds str
  unfold tokenizerLookup
  rw [wrapInt_eq (by omega) (by omega)]
  rw [Int.natCast_zero] at heq
  rw [heq]
  unfold VocabIndex.lookup at hfinds
  revert hfinds
  cases searchLoop (fun mid => strcmp str (vocab.getD (ix.indices.getD mid 0) [])) vocab.length 0 vocab.length <;>
    exact id

theorem tokenizerFindId_finds (hne : 1 ≤ vocab.length) (hn : vocab.length ≤ 2 ^ 30) (str : List UInt8) :
    Finds vocab str (tokenizerFindId vocab ix.indices str) := by
  have heq := searchInts_eq ix (by omega) (midOfSum_eq hn) (fun s => -strcmp s str) vocab.length 0 vocab.length
    (le_refl _) (by omega) (by omega)
  have hfinds := ix.finds str
  rw [← ix.findId_eq_lookup] at hfinds
  unfold tokenizerFindId
  rw [wrapInt_eq (by omega) (by omega)]
  rw [Int.natCast_zero] at heq
  rw [heq]
  unfold VocabIndex.findId at hfinds
  revert hfinds
  cases searchLoop (fun mid => -strcmp (vocab.getD (ix.indices.getD mid 0) []) str) vocab.length 0 vocab.length <;>
    exact id

/-! ## The sum that overflows -/

/-- A string above all the others walks to the upper end, where the sum of the bounds is no `int`. -/
theorem searchInts_overflow {cmpOf : List UInt8 → Int} (hlow : 2 ^ 30 < vocab.length) (hn : vocab.length < 2 ^ 31)
    (habove : ∀ s ∈ vocab, 0 < cmpOf s) : ∀ (fuel lo : Nat), lo < vocab.length → vocab.length - lo ≤ fuel →
      ∃ mid, searchInts midOfSum cmpOf vocab ix.indices fuel lo (vocab.length - 1) = .outside mid
  | 0, lo, hlo, hfuel => by omega
  | fuel + 1, lo, hlo, hfuel => by
    rw [searchInts, if_pos (by omega)]
    dsimp only
    by_cases hover : (2 : Int) ^ 31 ≤ (lo : Int) + (vocab.length - 1)
    · have hneg : midOfSum lo (vocab.length - 1) < 0 := by
        unfold midOfSum
        rw [wrapInt_overflow hover (by omega), ← Int.neg_neg ((lo : Int) + (vocab.length - 1) - 2 ^ 32), Int.neg_tdiv,
          Int.tdiv_eq_ediv_of_nonneg (by omega)]
        omega
      exact ⟨_, if_pos hneg⟩
    · have hmid : midOfSum lo (vocab.length - 1) = ((lo + (vocab.length - 1)) / 2 : Nat) := by
        unfold midOfSum
        rw [wrapInt_eq (by omega) (by omega), Int.tdiv_eq_ediv_of_nonneg (by omega)]
        omega
      obtain ⟨idx, s, hget, hidx, hs, -⟩ := ix.entry (k := (lo + (vocab.length - 1)) / 2) (by omega)
      have hpos := habove s (List.mem_of_getElem? hs)
      rw [hmid, if_neg (by omega), Int.toNat_natCast, hget]
      dsimp only
      rw [hs]
      dsimp only
      rw [if_neg (by omega), if_neg (by omega), wrapInt_eq (by omega) (by omega)]
      exact searchInts_overflow hlow hn habove fuel ((lo + (vocab.length - 1)) / 2 + 1) (by omega) (by omega)

end

/-- A string of bytes 255 is above every shorter one. -/
theorem strcmp_replicate : ∀ (s : List UInt8) (k : Nat), s.length < k → strcmp s (List.replicate k 255) < 0
  | [], k + 1, _ => by
    rw [List.replicate_succ, strcmp]
    omega
  | a :: s, k + 1, h => by
    rw [List.replicate_succ, strcmp]
    split
    · exact strcmp_replicate s k (Nat.lt_of_succ_lt_succ h)
    · next hne =>
      have hle : a.toNat < 256 := a.toNat_lt
      have hneq : a.toNat ≠ 255 := fun h255 => hne (UInt8.toNat_inj.1 h255)
      have h255 : (255 : UInt8).toNat = 255 := rfl
      omega

theorem exists_above (vocab : List (List UInt8)) : ∃ str : List UInt8, ∀ s ∈ vocab, 0 < -strcmp s str := by
  obtain ⟨k, hk⟩ : ∃ k, ∀ s ∈ vocab, s.length < k :=
    ⟨(vocab.map List.length).sum + 1, fun s hs => Nat.lt_succ_of_le (List.le_sum_of_mem (List.mem_map_of_mem hs))⟩
  refine ⟨List.replicate k 255, fun s hs => ?_⟩
  have := strcmp_replicate s k (hk s hs)
  omega

theorem not_indexCorrect {vocab : List (List UInt8)} (hlow : 2 ^ 30 < vocab.length) (hn : vocab.length < 2 ^ 31) :
    ¬ IndexCorrect vocab := by
  rintro ⟨indices, -, hperm, hsorted, hfinds⟩
  obtain ⟨str, habove⟩ := exists_above vocab
  obtain ⟨mid, hout⟩ := searchInts_overflow ⟨indices, hperm, hsorted⟩ hlow hn habove (vocab.length + 1) 0 (by omega)
    (by omega)
  have hfind := (hfinds str).2
  unfold tokenizerFindId at hfind
  rw [wrapInt_eq (by omega) (by omega)] at hfind
  rw [Int.natCast_zero] at hout
  rw [hout] at hfind
  rcases hfind with ⟨id, hfound, -⟩ | ⟨habsent, -⟩
  · cases hfound
  · cases habsent

/-- The index of a vocabulary works exactly if the vocabulary has at most `2 ^ 30` strings. -/
theorem indexCorrect_iff (vocab : List (List UInt8)) (hne : 1 ≤ vocab.length) (hn : vocab.length < 2 ^ 31) :
    IndexCorrect vocab ↔ vocab.length ≤ 2 ^ 30 := by
  constructor
  · intro h
    by_contra hlow
    exact not_indexCorrect (by omega) hn h
  · intro h
    obtain ⟨indices, hbuilt, hperm, hsorted⟩ := buildSortedIndex_spec vocab vocab.length
    refine ⟨indices, hbuilt, hperm, hsorted, fun str => ?_⟩
    exact ⟨tokenizerLookup_finds ⟨indices, hperm, hsorted⟩ hne hn str,
      tokenizerFindId_finds ⟨indices, hperm, hsorted⟩ hne h str⟩

theorem indexCorrect_duplicates : IndexCorrect [[65], [], [65]] ↔ 3 ≤ 2 ^ 30 :=
  indexCorrect_iff [[65], [], [65]] (by decide) (by decide)

/-- A vocabulary of empty strings, one more than the sum of the bounds has room for. -/
theorem index_overflows : ¬ ∀ vocab : List (List UInt8), 1 ≤ vocab.length → vocab.length < 2 ^ 31 → IndexCorrect vocab := by
  intro h
  have hlen : (List.replicate (2 ^ 30 + 1) ([] : List UInt8)).length = 2 ^ 30 + 1 := List.length_replicate
  exact not_indexCorrect (by omega) (by omega) (h (List.replicate (2 ^ 30 + 1) []) (by omega) (by omega))

end BitForge.Tokenizer
