/-
The merges of a GGUF vocabulary of type gpt2, as a list and as scores: the reference algorithm applies
the leftmost listed pair of lowest rank until none is left, the encoder the leftmost pair of highest
score. Where in every state of the reference the scores single out the reference's pair, the two are
the same run.
-/
import BitForge.Tokenizer.Encode

namespace BitForge.Tokenizer

open Lib

/-! ## The reference algorithm -/

section Reference

variable (t : Tokenizer) (merges : List (List UInt8))

/-- The rank of a pair of strings: the place of its first entry `a b`. -/
def mergeRank (a b : List UInt8) : Option Nat := merges.findIdx? fun m => splitMerge (untilNul m) = some (a, b)

/-- The rank of two neighbours and the token they are replaced by. A pair without such a token cannot be
applied. -/
def listedPair (a b : Nat) : Option (Nat × Nat) := do
  let rank ← mergeRank merges (t.str a) (t.str b)
  let id ← t.lookup (t.str a ++ t.str b)
  return (rank, id)

/-- The listed pairs of neighbours from place `i` on: rank, place and token. -/
def listedPairs : Nat → List Nat → List (Nat × Nat × Nat)
  | i, a :: b :: tokens =>
    match t.listedPair merges a b with
    | some (rank, id) => (rank, i, id) :: listedPairs (i + 1) (b :: tokens)
    | none => listedPairs (i + 1) (b :: tokens)
  | _, _ => []

/-- The leftmost entry of lowest rank. -/
def leftmostLowest : List (Nat × Nat × Nat) → Option (Nat × Nat × Nat)
  | [] => none
  | p :: ps =>
    match leftmostLowest ps with
    | some q => if q.1 < p.1 then some q else some p
    | none => some p

def referencePair (tokens : List Nat) : Option (Nat × Nat) := (leftmostLowest (t.listedPairs merges 0 tokens)).map Prod.snd

/-- The merges of the reference, in order. -/
def referenceTrace : Nat → List Nat → List (Nat × Nat)
  | 0, _ => []
  | fuel + 1, tokens =>
    match t.referencePair merges tokens with
    | none => []
    | some (i, id) => (i, id) :: referenceTrace fuel (mergeAt tokens i id)

/-- The token lists that the reference passes through. -/
def referenceStates : Nat → List Nat → List (List Nat)
  | 0, tokens => [tokens]
  | fuel + 1, tokens =>
    tokens ::
      match t.referencePair merges tokens with
      | none => []
      | some (i, id) => referenceStates fuel (mergeAt tokens i id)

def applyMerges (tokens : List Nat) (trace : List (Nat × Nat)) : List Nat :=
  trace.foldl (fun tokens p => mergeAt tokens p.1 p.2) tokens

/-- The reference on a segment, from the same tokens of its bytes. -/
def referenceSegment (text : List UInt8) (maxTokens : Nat) : Option (List Nat) :=
  (t.initialTokens maxTokens 0 text).map fun tokens => applyMerges tokens (t.referenceTrace merges tokens.length tokens)

/-- The merges of the encoder, in order. -/
def mergeTrace : Nat → List Nat → List (Nat × Nat)
  | 0, _ => []
  | fuel + 1, tokens =>
    match t.bestPair tokens with
    | none => []
    | some (i, id) => (i, id) :: mergeTrace fuel (mergeAt tokens i id)

theorem mergeLoop_eq_applyMerges : ∀ (fuel : Nat) (tokens : List Nat),
    t.mergeLoop fuel tokens = applyMerges tokens (t.mergeTrace fuel tokens)
  | 0, _ => rfl
  | fuel + 1, tokens => by
    rw [mergeLoop, mergeTrace]
    cases t.bestPair tokens with
    | none => rfl
    | some p => exact mergeLoop_eq_applyMerges fuel (mergeAt tokens p.1 p.2)

end Reference

/-! ## The scan -/

section Scan

variable (t : Tokenizer)

/-- The pairs of neighbours that are a token together, from place `i` on: place and token. -/
def offers : Nat → List Nat → List (Nat × Nat)
  | i, a :: b :: tokens =>
    match t.mergedToken a b with
    | some id => (i, id) :: offers (i + 1) (b :: tokens)
    | none => offers (i + 1) (b :: tokens)
  | _, _ => []

/-- The score of a token is above that of another one. -/
def Above (a b : Nat) : Prop := Single.gt a b = true

/-- No score is a NaN. -/
def Comparable : Prop := ∀ id, ∃ z, Single.place (t.score id) = some z

variable {t}

theorem above_iff {a b : Nat} {x y : Int} (ha : Single.place a = some x) (hb : Single.place b = some y) :
    Above a b ↔ y < x := Single.gt_iff ha hb

theorem lowestScore_place : ∃ z, Single.place lowestScore = some z := ⟨_, rfl⟩

theorem offers_ge : ∀ (tokens : List Nat) (i : Nat), ∀ p ∈ t.offers i tokens, i ≤ p.1 ∧ p.1 + 1 < i + tokens.length
  | [], _, _, h => nomatch h
  | [_], _, _, h => nomatch h
  | a :: b :: tokens, i, p, h => by
    rw [offers] at h
    have hrest (hp : p ∈ t.offers (i + 1) (b :: tokens)) : i ≤ p.1 ∧ p.1 + 1 < i + (a :: b :: tokens).length := by
      have := offers_ge (b :: tokens) (i + 1) p hp
      rw [List.length_cons]
      omega
    split at h
    · rcases List.mem_cons.1 h with rfl | hp
      · refine ⟨Nat.le_refl _, ?_⟩
        rw [List.length_cons, List.length_cons]
        omega
      · exact hrest hp
    · exact hrest h

theorem offers_sorted : ∀ (tokens : List Nat) (i : Nat), (t.offers i tokens).Pairwise fun p q => p.1 < q.1
  | [], _ => .nil
  | [_], _ => .nil
  | a :: b :: tokens, i => by
    rw [offers]
    split
    · refine List.pairwise_cons.2 ⟨fun q hq => ?_, offers_sorted (b :: tokens) (i + 1)⟩
      have := (offers_ge (b :: tokens) (i + 1) q hq).1
      dsimp only
      omega
    · exact offers_sorted (b :: tokens) (i + 1)

/-- What a scan leaves: the best so far where nothing is above it, or else the first of the highest offers. -/
theorem scanPairs_spec (hcomp : t.Comparable) : ∀ (tokens : List Nat) (i : Nat) (best : Best),
    (∃ z, Single.place best.score = some z) →
    (t.scanPairs i best tokens = best ∧ ∀ p ∈ t.offers i tokens, ¬ Above (t.score p.2) best.score) ∨
      ∃ pre p post, t.offers i tokens = pre ++ p :: post ∧ t.scanPairs i best tokens = ⟨t.score p.2, some p⟩ ∧
        Above (t.score p.2) best.score ∧ (∀ q ∈ pre, Above (t.score p.2) (t.score q.2)) ∧
        ∀ q ∈ post, ¬ Above (t.score q.2) (t.score p.2)
  | [], _, _, _ => .inl ⟨rfl, nofun⟩
  | [_], _, _, _ => .inl ⟨rfl, nofun⟩
  | a :: b :: tokens, i, best, hbest => by
    rw [scanPairs, offers]
    unfold Best.consider
    cases t.mergedToken a b with
    | none => exact scanPairs_spec hcomp (b :: tokens) (i + 1) best hbest
    | some id =>
      dsimp only
      obtain ⟨x, hx⟩ := hcomp id
      obtain ⟨y, hy⟩ := hbest
      by_cases habove : Above (t.score id) best.score
      · rw [if_pos (show Single.gt (t.score id) best.score = true from habove)]
        rcases scanPairs_spec hcomp (b :: tokens) (i + 1) ⟨t.score id, some (i, id)⟩ ⟨x, hx⟩ with
          ⟨hscan, hnone⟩ | ⟨pre, p, post, hoffers, hscan, hp, hpre, hpost⟩
        · exact .inr ⟨[], (i, id), t.offers (i + 1) (b :: tokens), rfl, hscan, habove, nofun, hnone⟩
        · -- a later pair is above this one
          refine .inr ⟨(i, id) :: pre, p, post, by rw [hoffers]; rfl, hscan, ?_, fun q hq => ?_, hpost⟩
          · obtain ⟨z, hz⟩ := hcomp p.2
            rw [above_iff hz hy]
            rw [above_iff hx hy] at habove
            rw [above_iff hz hx] at hp
            omega
          · rcases List.mem_cons.1 hq with rfl | hq
            · exact hp
            · exact hpre q hq
      · have hbool : ¬ Single.gt (t.score id) best.score = true := habove
        rw [if_neg hbool]
        rcases scanPairs_spec hcomp (b :: tokens) (i + 1) best ⟨y, hy⟩ with
          ⟨hscan, hnone⟩ | ⟨pre, p, post, hoffers, hscan, hp, hpre, hpost⟩
        · refine .inl ⟨hscan, fun q hq => ?_⟩
          rcases List.mem_cons.1 hq with rfl | hq
          · exact habove
          · exact hnone q hq
        · refine .inr ⟨(i, id) :: pre, p, post, by rw [hoffers]; rfl, hscan, hp, fun q hq => ?_, hpost⟩
          rcases List.mem_cons.1 hq with rfl | hq
          · obtain ⟨z, hz⟩ := hcomp p.2
            rw [above_iff hz hx]
            rw [above_iff hx hy] at habove
            rw [above_iff hz hy] at hp
            omega
          · exact hpre q hq

theorem bestPair_none_iff (hcomp : t.Comparable) {tokens : List Nat} :
    t.bestPair tokens = none ↔ ∀ p ∈ t.offers 0 tokens, ¬ Above (t.score p.2) lowestScore := by
  unfold bestPair
  rcases scanPairs_spec hcomp tokens 0 ⟨lowestScore, none⟩ lowestScore_place with
    ⟨hscan, hnone⟩ | ⟨pre, p, post, hoffers, hscan, hp, -, -⟩
  · rw [hscan]
    exact iff_of_true rfl hnone
  · rw [hscan]
    refine iff_of_false nofun fun h => h p ?_ hp
    rw [hoffers]
    exact List.mem_append_right _ List.mem_cons_self

/-- The pair the encoder merges: an offer above the lowest score, above the offers on its left and not
below those on its right. -/
theorem bestPair_some_iff (hcomp : t.Comparable) {tokens : List Nat} {p : Nat × Nat} :
    t.bestPair tokens = some p ↔ p ∈ t.offers 0 tokens ∧ Above (t.score p.2) lowestScore ∧
      ∀ q ∈ t.offers 0 tokens, (q.1 < p.1 → Above (t.score p.2) (t.score q.2)) ∧
        (p.1 < q.1 → ¬ Above (t.score q.2) (t.score p.2)) := by
  have hsorted := offers_sorted (t := t) tokens 0
  unfold bestPair
  rcases scanPairs_spec hcomp tokens 0 ⟨lowestScore, none⟩ lowestScore_place with
    ⟨hscan, hnone⟩ | ⟨pre, m, post, hoffers, hscan, hm, hpre, hpost⟩
  · rw [hscan]
    exact iff_of_false nofun fun ⟨hp, habove, _⟩ => hnone p hp habove
  · rw [hscan, hoffers]
    rw [hoffers] at hsorted
    obtain ⟨-, hmpost, hpremid⟩ := List.pairwise_append.1 hsorted
    have hafter := (List.pairwise_cons.1 hmpost).1
    have hbefore : ∀ q ∈ pre, q.1 < m.1 := fun q hq => hpremid q hq m List.mem_cons_self
    constructor
    · rintro ⟨⟩
      refine ⟨List.mem_append_right _ List.mem_cons_self, hm, fun q hq => ?_⟩
      rcases List.mem_append.1 hq with hq | hq
      · have := hbefore q hq
        exact ⟨fun _ => hpre q hq, fun hlt => by omega⟩
      · rcases List.mem_cons.1 hq with rfl | hq
        · exact ⟨fun hlt => absurd hlt (Nat.lt_irrefl _), fun hlt => absurd hlt (Nat.lt_irrefl _)⟩
        · have := hafter q hq
          exact ⟨fun hlt => by omega, fun _ => hpost q hq⟩
    · rintro ⟨hp, -, hall⟩
      -- two such pairs are at one place
      rcases List.mem_append.1 hp with hp | hp
      · exact absurd (hpre p hp) ((hall m (List.mem_append_right _ List.mem_cons_self)).2 (hbefore p hp))
      · rcases List.mem_cons.1 hp with rfl | hp
        · rfl
        · exact absurd ((hall m (List.mem_append_right _ List.mem_cons_self)).1 (hafter p hp)) (hpost p hp)

end Scan

/-! ## The two runs -/

section Runs

variable (t : Tokenizer) (merges : List (List UInt8))

/-- In a state, the scores single out the pair of the reference: its token scores above `-1e10f`, above
each offer on its left and not below an offer on its right; where the reference is done, no offer scores
above `-1e10f`. -/
def ScoresFollow (tokens : List Nat) : Prop :=
  match t.referencePair merges tokens with
  | none => ∀ p ∈ t.offers 0 tokens, ¬ Above (t.score p.2) lowestScore
  | some p => p ∈ t.offers 0 tokens ∧ Above (t.score p.2) lowestScore ∧
      ∀ q ∈ t.offers 0 tokens, (q.1 < p.1 → Above (t.score p.2) (t.score q.2)) ∧
        (p.1 < q.1 → ¬ Above (t.score q.2) (t.score p.2))

instance (a b : Nat) : Decidable (Above a b) := inferInstanceAs (Decidable (_ = true))

instance (tokens : List Nat) : Decidable (t.ScoresFollow merges tokens) :=
  match h : t.referencePair merges tokens with
  | none => decidable_of_iff (∀ p ∈ t.offers 0 tokens, ¬ Above (t.score p.2) lowestScore) (by unfold ScoresFollow; rw [h])
  | some p =>
    decidable_of_iff (p ∈ t.offers 0 tokens ∧ Above (t.score p.2) lowestScore ∧
      ∀ q ∈ t.offers 0 tokens, (q.1 < p.1 → Above (t.score p.2) (t.score q.2)) ∧
        (p.1 < q.1 → ¬ Above (t.score q.2) (t.score p.2))) (by unfold ScoresFollow; rw [h])

variable {t merges}

theorem scoresFollow_iff (hcomp : t.Comparable) {tokens : List Nat} :
    t.ScoresFollow merges tokens ↔ t.bestPair tokens = t.referencePair merges tokens := by
  unfold ScoresFollow
  cases t.referencePair merges tokens with
  | none => exact (bestPair_none_iff hcomp).symm
  | some p => exact (bestPair_some_iff hcomp).symm

theorem leftmostLowest_mem : ∀ {ps : List (Nat × Nat × Nat)} {p : Nat × Nat × Nat}, leftmostLowest ps = some p → p ∈ ps
  | q :: ps, p, h => by
    rw [leftmostLowest] at h
    split at h
    · next r hr =>
      split at h
      · cases h
        exact List.mem_cons_of_mem _ (leftmostLowest_mem hr)
      · cases h
        exact List.mem_cons_self
    · cases h
      exact List.mem_cons_self

theorem listedPairs_mem : ∀ {tokens : List Nat} {i : Nat} {p : Nat × Nat × Nat}, p ∈ t.listedPairs merges i tokens →
    i ≤ p.2.1 ∧ p.2.1 + 1 < i + tokens.length
  | [], _, _, h => nomatch h
  | [_], _, _, h => nomatch h
  | a :: b :: tokens, i, p, h => by
    rw [listedPairs] at h
    have hrest (hp : p ∈ t.listedPairs merges (i + 1) (b :: tokens)) :
        i ≤ p.2.1 ∧ p.2.1 + 1 < i + (a :: b :: tokens).length := by
      have := listedPairs_mem hp
      rw [List.length_cons]
      omega
    split at h
    · rcases List.mem_cons.1 h with rfl | hp
      · refine ⟨Nat.le_refl _, ?_⟩
        rw [List.length_cons, List.length_cons]
        dsimp only
        omega
      · exact hrest hp
    · exact hrest h

theorem referencePair_lt {tokens : List Nat} {p : Nat × Nat} (h : t.referencePair merges tokens = some p) :
    p.1 + 1 < tokens.length := by
  obtain ⟨q, hq, rfl⟩ := Option.map_eq_some_iff.1 h
  have := (listedPairs_mem (leftmostLowest_mem hq)).2
  omega

theorem length_mergeAt {tokens : List Nat} {i : Nat} (id : Nat) (h : i + 1 < tokens.length) :
    (mergeAt tokens i id).length + 1 = tokens.length := by
  unfold mergeAt
  rw [List.length_append, List.length_cons, List.length_take, List.length_drop]
  omega

/-- The encoder makes the merges of the reference, in its order, exactly if the scores follow the ranks in
every state the reference passes through. -/
theorem mergeTrace_eq_iff (hcomp : t.Comparable) : ∀ {fuel : Nat} {tokens : List Nat}, tokens.length ≤ fuel →
    (t.mergeTrace fuel tokens = t.referenceTrace merges fuel tokens ↔
      ∀ s ∈ t.referenceStates merges fuel tokens, t.ScoresFollow merges s)
  | 0, tokens, hlen => by
    obtain rfl := List.length_eq_zero_iff.1 (Nat.le_zero.1 hlen)
    refine iff_of_true rfl fun s hs => ?_
    rw [List.mem_singleton.1 hs]
    exact nofun
  | fuel + 1, tokens, hlen => by
    rw [mergeTrace, referenceTrace, referenceStates, List.forall_mem_cons, scoresFollow_iff hcomp]
    cases href : t.referencePair merges tokens with
    | none =>
      cases t.bestPair tokens with
      | none => exact iff_of_true rfl ⟨rfl, nofun⟩
      | some p => exact iff_of_false nofun fun h => nomatch h.1
    | some p =>
      have hshort := length_mergeAt p.2 (referencePair_lt href)
      have ih := @mergeTrace_eq_iff hcomp fuel (mergeAt tokens p.1 p.2) (by omega)
      cases t.bestPair tokens with
      | none => exact iff_of_false nofun fun h => nomatch h.1
      | some q =>
        dsimp only
        rw [List.cons.injEq, Option.some.injEq]
        constructor
        · rintro ⟨hq, htrace⟩
          obtain rfl : q = p := hq
          exact ⟨rfl, ih.1 htrace⟩
        · rintro ⟨rfl, hstates⟩
          exact ⟨rfl, ih.2 hstates⟩

end Runs

/-! ## The scores of the GGUF loader -/

theorem place_neg_ofNat {n : Nat} (hn : n < 2 ^ 64) : Single.place (Single.neg (Single.ofNat n)) = some (-(Single.ofNat n : Int)) := by
  have hle := Single.ofNat_le hn
  unfold Single.place Single.neg
  have hmod : (Single.ofNat n + 2 ^ 31) % 2 ^ 31 = Single.ofNat n := by omega
  have hdiv : (Single.ofNat n + 2 ^ 31) / 2 ^ 31 % 2 = 1 := by omega
  rw [hmod, hdiv]
  simp only [Nat.not_lt.2 hle, if_false, if_true]

theorem scoreMerge_places {vocab : List (List UInt8)} {scores : List Nat} {rank : Nat} {merge : List UInt8} (hrank : rank < 2 ^ 64)
    (h : ∀ id, ∃ z, Single.place (scores.getD id 0) = some z) :
    ∀ id, ∃ z, Single.place ((scoreMerge vocab scores rank merge).getD id 0) = some z := by
  unfold scoreMerge
  split
  · exact h
  split
  · exact h
  · next k _ =>
    split
    · intro id
      by_cases hid : k = id
      · subst hid
        rw [List.getD_eq_getElem?_getD, List.getElem?_set_self']
        cases scores[k]? with
        | none => exact ⟨0, Single.place_zero⟩
        | some s => exact ⟨_, place_neg_ofNat hrank⟩
      · rw [List.getD_eq_getElem?_getD, List.getElem?_set_ne hid, ← List.getD_eq_getElem?_getD]
        exact h id
    · exact h

theorem mergeScores_places {vocab : List (List UInt8)} : ∀ {merges : List (List UInt8)} {rank : Nat} {scores : List Nat},
    rank + merges.length ≤ 2 ^ 64 → (∀ id, ∃ z, Single.place (scores.getD id 0) = some z) →
      ∀ id, ∃ z, Single.place ((mergeScores vocab rank scores merges).getD id 0) = some z
  | [], _, _, _, h => h
  | merge :: merges, rank, scores, hlen, h => by
    rw [List.length_cons] at hlen
    rw [mergeScores]
    exact mergeScores_places (by omega) (scoreMerge_places (by omega) h)

/-- The scores of a vocabulary of type gpt2 are comparable. -/
theorem comparable_of_load {hdr : GGUFTokenizerMeta} {t : Tokenizer} {merges : List (List UInt8)}
    (hload : tokenizerLoadFromGguf hdr = some t) (hmodel : hdr.model = some (ascii "gpt2"))
    (hmerges : hdr.merges = some (.strings merges)) (hcount : merges.length ≤ 2 ^ 64) : t.Comparable := by
  unfold tokenizerLoadFromGguf at hload
  split at hload
  · split at hload
    · cases hload
    · cases hload
      intro id
      have hgpt2 : hdr.model.map untilNul = some (ascii "gpt2") := by rw [hmodel]; decide
      unfold score
      dsimp only
      rw [if_pos hgpt2, hmerges]
      refine mergeScores_places (by omega) (fun id => ⟨0, ?_⟩) id
      unfold zeroScores
      rw [List.getD_eq_getElem?_getD, List.getElem?_replicate]
      split <;> exact Single.place_zero
  · cases hload

/-- For every vocabulary of type gpt2 that loads and every segment: the encoder makes the merges of the
reference in its order exactly if the scores follow the ranks in every state the reference passes
through, and then it produces the reference's tokens. -/
theorem encodeSegment_eq_reference {hdr : GGUFTokenizerMeta} {t : Tokenizer} {merges : List (List UInt8)}
    (hload : tokenizerLoadFromGguf hdr = some t) (hmodel : hdr.model = some (ascii "gpt2"))
    (hmerges : hdr.merges = some (.strings merges)) (hcount : merges.length ≤ 2 ^ 64) (text : List UInt8) :
    (t.mergeTrace text.length (text.map t.byteToken) = t.referenceTrace merges text.length (text.map t.byteToken) ↔
      ∀ s ∈ t.referenceStates merges text.length (text.map t.byteToken), t.ScoresFollow merges s) ∧
    ((∀ s ∈ t.referenceStates merges text.length (text.map t.byteToken), t.ScoresFollow merges s) →
      ∀ maxTokens, t.encodeSegment text maxTokens = t.referenceSegment merges text maxTokens) := by
  have hcomp := comparable_of_load hload hmodel hmerges hcount
  have hiff := @mergeTrace_eq_iff t merges hcomp text.length (text.map t.byteToken) (by rw [List.length_map])
  refine ⟨hiff, fun hstates maxTokens => ?_⟩
  unfold encodeSegment referenceSegment
  cases hinit : t.initialTokens maxTokens 0 text with
  | none => rfl
  | some tokens =>
    obtain rfl := initialTokens_some hinit
    rw [Option.map_some, Option.map_some, mergeLoop_eq_applyMerges, List.length_map, hiff.2 hstates]

/-- Three letters and two of their pairs. -/
def abcVocabulary (merge : String) : GGUFTokenizerMeta :=
  { model := some (ascii "gpt2")
    tokens := some (.strings [ascii "a", ascii "b", ascii "c", ascii "ab", ascii "bc"])
    scores := none
    merges := some (.strings [ascii merge])
    bosTokenId := none
    tokenType := none }

theorem encodeSegment_eq_reference_abc : ∃ t, tokenizerLoadFromGguf (abcVocabulary "a b") = some t ∧
    t.encodeSegment (ascii "abc") 8 = t.referenceSegment [ascii "a b"] (ascii "abc") 8 :=
  ⟨_, rfl, (@encodeSegment_eq_reference (abcVocabulary "a b") _ [ascii "a b"] rfl rfl rfl (by decide) (ascii "abc")).2
    (by decide +kernel) 8⟩

/-- The pair `a b` is no merge, but its token has the score of the listed pair `b c` and stands on its left. -/
theorem unlisted_pair_merged_first : ∃ t, tokenizerLoadFromGguf (abcVocabulary "b c") = some t ∧
    t.encodeSegment (ascii "abc") 8 = some [3, 2] ∧ t.referenceSegment [ascii "b c"] (ascii "abc") 8 = some [0, 4] :=
  ⟨_, rfl, by decide +kernel, by decide +kernel⟩

end BitForge.Tokenizer
