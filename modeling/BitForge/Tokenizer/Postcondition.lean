/-
What holds when the encoder returns tokens: which cells of the output it wrote, how the text is cut, what the tokens of a
plain segment spell, that no pair of neighbours is left to merge, and that the merge loop kept inside its buffer. That no
pair is left hinges on the product `max_token_len * 2`, an `int`: with a token of 2^30 bytes it wraps to a negative number,
and no pair is ever merged.
-/
import BitForge.Tokenizer.Room

namespace BitForge.Tokenizer

open Lib

/-! ## What the run touches -/

section

variable (t : Tokenizer)

/-- The arrays of tokens that the merge loop scans, one for each round. -/
def mergeStates : Nat → List Nat → List (List Nat)
  | 0, tokens => [tokens]
  | fuel + 1, tokens =>
    match t.bestPair tokens with
    | none => [tokens]
    | some (i, id) => tokens :: mergeStates fuel (mergeAt tokens i id)

/-- The cells that the merges write: the merged token, and the tokens behind it moved left. -/
def mergeWrites : Nat → List Nat → List Nat
  | 0, _ => []
  | fuel + 1, tokens =>
    match t.bestPair tokens with
    | none => []
    | some (i, id) => i :: List.range' (i + 1) (tokens.length - 2 - i) ++ mergeWrites fuel (mergeAt tokens i id)

/-- The cells of its array that a segment writes. -/
def segmentWrites (text : List UInt8) : List Nat :=
  List.range text.length ++ t.mergeWrites text.length (text.map t.byteToken)

/-- The cells of `tokens` that the encoding of the cuts writes, with `n` tokens written before. -/
def cutWrites : List UInt8 → List Cut → Nat → List Nat
  | _, [], _ => []
  | s, .special len _ :: cs, n => n :: cutWrites (s.drop len) cs (n + 1)
  | s, .plain len :: cs, n =>
    (t.segmentWrites (s.take len)).map (n + ·) ++
      cutWrites (s.drop len) cs (n + (t.segmentTokens (s.take len)).length)

/-- The bytes of `merge_buf`, whose size is computed in `size_t`. -/
def mergeBufSize : Nat := t.maxTokenLen.toNat * 2 + 2

/-- What the loop does with two neighbours: their lengths and the sum are `int`s, and a copy stays in `merge_buf`. -/
structure PairSafe (a b : Nat) : Prop where
  lens : (t.str a).length < 2 ^ 31 ∧ (t.str b).length < 2 ^ 31
  sum : (t.str a).length + (t.str b).length < 2 ^ 31
  inBuf : t.mergeLen a b ≤ t.mergeBound → (t.str a).length + (t.str b).length + 1 ≤ t.mergeBufSize

/-! ## The postcondition -/

/-- The tokens of a plain segment. -/
structure SegmentPost (text : List UInt8) (tokens : List Nat) : Prop where
  spells : tokens.flatMap t.str = text.flatMap byteUnicode
  maximal : ∀ a b, [a, b] <:+: tokens → ∀ id < t.vocabSize, t.str id = t.str a ++ t.str b →
    ¬ ((t.str a ++ t.str b).length : Int) ≤ 2 * t.maxTokenLen
  /-- the loop ended since it found no pair, not for want of rounds -/
  ends : tokens = t.segmentTokens text ∧ t.bestPair tokens = none
  pairs : ∀ state ∈ t.mergeStates text.length (text.map t.byteToken), ∀ a b, [a, b] <:+: state → t.PairSafe a b

/-- The token is the longest special token at the front of the text. -/
structure IsLongest (s : List UInt8) (len id : Nat) : Prop where
  pos : 0 < len
  le : len ≤ s.length
  str_eq : t.str id = s.take len
  special : s.take len ∈ t.specialStrings
  longest : ∀ w ∈ t.specialStrings, w <+: s → w.length ≤ len

/-- No special token starts in the first `len` bytes, and one starts behind them unless the text ends there. -/
structure IsPlain (s : List UInt8) (len : Nat) : Prop where
  pos : 0 < len
  le : len ≤ s.length
  noSpecial : ∀ i < len, ∀ w ∈ t.specialStrings, ¬ w <+: s.drop i
  next : s.drop len = [] ∨ ∃ w ∈ t.specialStrings, w <+: s.drop len

/-- The cuts split the text and the tokens. -/
def CutsPost : List UInt8 → List Cut → List Nat → Prop
  | s, [], tokens => s = [] ∧ tokens = []
  | s, .special len id :: cs, tokens => t.IsLongest s len id ∧ ∃ rest, tokens = id :: rest ∧ CutsPost (s.drop len) cs rest
  | s, .plain len :: cs, tokens =>
    t.IsPlain s len ∧
      ∃ segment rest, tokens = segment ++ rest ∧ t.SegmentPost (s.take len) segment ∧ CutsPost (s.drop len) cs rest

/-- What holds when `tokenizer_encode` returns. -/
structure EncodePost (text : List UInt8) (maxTokens : Int) (tokens : List Nat) : Prop where
  length_le : (tokens.length : Int) ≤ maxTokens
  writes : ∀ w ∈ t.cutWrites text (t.cuts text.length text) 0, (w : Int) < maxTokens
  cuts : t.CutsPost text (t.cuts text.length text) tokens

/-- A tokenizer that one of the loaders has made. -/
def Loaded : Prop := (∃ hdr, tokenizerLoadFromGguf hdr = some t) ∨ ∃ file, tokenizerLoad file = some t

/-- Every score is above the score that the scan starts with. -/
def ScoresAbove : Prop := ∀ id < t.vocabSize, Single.gt (t.score id) lowestScore = true

/-- No two neighbouring bytes are a token together. -/
def NoBytePair (segment : List UInt8) : Prop :=
  ∀ c d, [c, d] <:+: segment → ∀ id < t.vocabSize, t.str id ≠ byteUnicode c ++ byteUnicode d

/-- The plain segments of a text. -/
def plainTexts : List UInt8 → List Cut → List (List UInt8)
  | _, [] => []
  | s, .special len _ :: cs => plainTexts (s.drop len) cs
  | s, .plain len :: cs => s.take len :: plainTexts (s.drop len) cs

/-- The bound of the merge loop does not wrap, or the loop has nothing to merge. -/
def BoundFits (text : List UInt8) : Prop :=
  t.maxTokenLen < 2 ^ 30 ∨ ∀ segment ∈ plainTexts text (t.cuts text.length text), t.NoBytePair segment

end

variable {t : Tokenizer}

/-! ## The merge loop -/

theorem scanPairs_keeps_pair : ∀ {tokens : List Nat} {i : Nat} {best : Best}, best.pair ≠ none →
    (t.scanPairs i best tokens).pair ≠ none
  | [], _, _, h => h
  | [_], _, _, h => h
  | a :: b :: tokens, i, best, h => by
    rw [scanPairs]
    refine scanPairs_keeps_pair ?_
    unfold Best.consider
    split
    · split
      · exact Option.some_ne_none _
      · exact h
    · exact h

/-- A scan that takes nothing has seen no token above the score it started with. -/
theorem scanPairs_none : ∀ {tokens : List Nat} {i : Nat} {best : Best}, (t.scanPairs i best tokens).pair = none →
    ∀ a b, [a, b] <:+: tokens → ∀ id, t.mergedToken a b = some id → Single.gt (t.score id) best.score = false
  | [], i, best, _, a, b, hab, _, _ => absurd hab.length_le (by simp)
  | [_], i, best, _, a, b, hab, _, _ => absurd hab.length_le (by simp)
  | x :: y :: tokens, i, best, h, a, b, hab, id, hid => by
    rw [scanPairs] at h
    have hkept : best.consider t i x y = best := by
      by_contra hne
      refine scanPairs_keeps_pair ?_ h
      unfold Best.consider at hne ⊢
      split
      · next id' hid' =>
        rw [hid'] at hne
        split
        · exact Option.some_ne_none _
        · next hno => simp only [if_neg hno, not_true_eq_false] at hne
      · next hid' => simp only [hid', not_true_eq_false] at hne
    rw [hkept] at h
    rcases List.infix_cons_iff.1 hab with hpre | hrest
    · obtain ⟨ha, hpre⟩ := List.cons_prefix_cons.1 hpre
      obtain ⟨hb, -⟩ := List.cons_prefix_cons.1 hpre
      subst ha hb
      by_contra hgt
      unfold Best.consider at hkept
      rw [hid] at hkept
      dsimp only at hkept
      rw [if_pos (by simpa using hgt)] at hkept
      exact scanPairs_keeps_pair (by rw [← hkept]; exact Option.some_ne_none _) h
    · exact scanPairs_none h a b hrest id hid

/-- Where no pair is taken, no two neighbours merge. -/
theorem bestPair_none (hscores : ScoresAbove t) {tokens : List Nat} (h : t.bestPair tokens = none) {a b : Nat}
    (hab : [a, b] <:+: tokens) : t.mergedToken a b = none := by
  cases hmerged : t.mergedToken a b with
  | none => rfl
  | some id =>
    have hlow := scanPairs_none h a b hab id hmerged
    rw [hscores id (mergedToken_some hmerged).1] at hlow
    cases hlow

theorem mergeAt_append (pre : List Nat) (a b id : Nat) (post : List Nat) :
    mergeAt (pre ++ a :: b :: post) pre.length id = pre ++ id :: post := by
  unfold mergeAt
  rw [List.take_left, List.drop_append, List.drop_eq_nil_of_le (by omega), Nat.add_sub_cancel_left]
  rfl

theorem length_mergeAt_lt {tokens : List Nat} {p : Nat × Nat} (h : t.bestPair tokens = some p) :
    p.1 + 2 ≤ tokens.length ∧ (mergeAt tokens p.1 p.2).length + 1 = tokens.length := by
  obtain ⟨pre, a, b, post, rfl, hp, -⟩ := bestPair_some h
  rw [hp, mergeAt_append]
  simp only [List.length_append, List.length_cons]
  omega

/-- As many rounds as there are tokens are enough. -/
theorem mergeLoop_ends : ∀ {fuel : Nat} {tokens : List Nat}, tokens.length ≤ fuel → t.bestPair (t.mergeLoop fuel tokens) = none
  | 0, tokens, h => by
    rw [List.length_eq_zero_iff.1 (Nat.le_zero.1 h)]
    rfl
  | fuel + 1, tokens, h => by
    rw [mergeLoop]
    cases hbest : t.bestPair tokens with
    | none => exact hbest
    | some p =>
      have hlen := (length_mergeAt_lt hbest).2
      exact mergeLoop_ends (by omega)

theorem mergeLoop_length_le : ∀ {fuel : Nat} {tokens : List Nat}, (t.mergeLoop fuel tokens).length ≤ tokens.length
  | 0, tokens => le_refl _
  | fuel + 1, tokens => by
    rw [mergeLoop]
    cases hbest : t.bestPair tokens with
    | none => exact le_refl _
    | some p =>
      have hlen := (length_mergeAt_lt hbest).2
      have hrest : (t.mergeLoop fuel (mergeAt tokens p.1 p.2)).length ≤ (mergeAt tokens p.1 p.2).length := mergeLoop_length_le
      dsimp only
      omega

/-- A merge keeps what the tokens spell. -/
theorem mergeLoop_spells : ∀ {fuel : Nat} {tokens : List Nat}, (t.mergeLoop fuel tokens).flatMap t.str = tokens.flatMap t.str
  | 0, tokens => rfl
  | fuel + 1, tokens => by
    rw [mergeLoop]
    cases hbest : t.bestPair tokens with
    | none => rfl
    | some p =>
      obtain ⟨pre, a, b, post, rfl, hp, hmerged⟩ := bestPair_some hbest
      have hstr := (mergedToken_some hmerged).2
      dsimp only
      rw [mergeLoop_spells, hp, mergeAt_append]
      simp [hstr]

theorem mergeWrites_lt : ∀ {fuel : Nat} {tokens : List Nat}, ∀ w ∈ t.mergeWrites fuel tokens, w < tokens.length
  | fuel + 1, tokens, w, hw => by
    rw [mergeWrites] at hw
    cases hbest : t.bestPair tokens with
    | none =>
      rw [hbest] at hw
      cases hw
    | some p =>
      rw [hbest] at hw
      obtain ⟨hle, hlen⟩ := length_mergeAt_lt hbest
      dsimp only at hw
      rcases List.mem_append.1 hw with hw | hw
      · rcases List.mem_cons.1 hw with rfl | hw
        · omega
        · have := List.mem_range'_1.1 hw
          omega
      · have := mergeWrites_lt w hw
        omega

theorem segmentTokens_length_le (text : List UInt8) : (t.segmentTokens text).length ≤ text.length := by
  have hlen := @mergeLoop_length_le t text.length (text.map t.byteToken)
  rwa [List.length_map] at hlen

theorem segmentWrites_lt {text : List UInt8} {w : Nat} (hw : w ∈ t.segmentWrites text) : w < text.length := by
  rcases List.mem_append.1 hw with hw | hw
  · exact List.mem_range.1 hw
  · have := mergeWrites_lt w hw
    rwa [List.length_map] at this

/-! ## The lengths of the tokens -/

/-- What the loaders promise of `max_token_len`. -/
structure LensBounded (t : Tokenizer) : Prop where
  nonneg : 0 ≤ t.maxTokenLen
  lt : t.maxTokenLen < 2 ^ 31
  le : ∀ id < t.vocabSize, toInt32 (t.str id).length ≤ t.maxTokenLen

theorem toInt32_of_lt {n : Nat} (h : n < 2 ^ 31) : toInt32 n = n := by
  unfold toInt32
  rw [if_pos (by omega), Nat.mod_eq_of_lt (by omega)]

theorem mergeBound_eq (hlens : LensBounded t) (hproduct : t.maxTokenLen < 2 ^ 30) : t.mergeBound = t.maxTokenLen * 2 :=
  wrapInt_eq (by have := hlens.nonneg; omega) (by omega)

/-- A product that overflows is negative. -/
theorem mergeBound_neg (hlens : LensBounded t) (hproduct : 2 ^ 30 ≤ t.maxTokenLen) : t.mergeBound < 0 := by
  have hlt := hlens.lt
  unfold mergeBound
  rw [wrapInt_overflow (by omega) (by omega)]
  omega

theorem mergeLen_eq {a b : Nat} (hsum : (t.str a).length + (t.str b).length < 2 ^ 31) :
    t.mergeLen a b = (t.str a).length + (t.str b).length := by
  unfold mergeLen
  rw [toInt32_of_lt (by omega), toInt32_of_lt (by omega)]
  exact wrapInt_eq (by omega) (by omega)

/-- The tokens of a segment are no longer than `max_token_len`. -/
def Short (t : Tokenizer) (tokens : List Nat) : Prop := ∀ a ∈ tokens, a < t.vocabSize ∧ ((t.str a).length : Int) ≤ t.maxTokenLen

theorem short_bytes (hbytes : HasBytes t) (hlens : LensBounded t) (text : List UInt8) : Short t (text.map t.byteToken) := by
  intro a ha
  obtain ⟨c, -, rfl⟩ := List.mem_map.1 ha
  obtain ⟨hlt, hstr⟩ := byteToken_spec hbytes c
  have hle := hlens.le _ hlt
  have hlen := length_byteUnicode c
  rw [hstr] at hle ⊢
  rw [toInt32_of_lt (by omega)] at hle
  exact ⟨hlt, hle⟩

theorem short_merge (hlens : LensBounded t) (hproduct : t.maxTokenLen < 2 ^ 30) {tokens : List Nat} (h : Short t tokens)
    {i id : Nat} (hbest : t.bestPair tokens = some (i, id)) : Short t (mergeAt tokens i id) := by
  obtain ⟨pre, a, b, post, rfl, hi, hmerged⟩ := bestPair_some hbest
  obtain ⟨hlt, hstr⟩ := mergedToken_some hmerged
  have ha := (h a (by simp)).2
  have hb := (h b (by simp)).2
  have hle := hlens.le id hlt
  intro x hx
  unfold mergeAt at hx
  rcases List.mem_append.1 hx with hx | hx
  · exact h x (List.mem_of_mem_take hx)
  · rcases List.mem_cons.1 hx with rfl | hx
    · refine ⟨hlt, ?_⟩
      rw [hstr, List.length_append] at hle ⊢
      rwa [toInt32_of_lt (by omega)] at hle
    · exact h x (List.mem_of_mem_drop hx)

theorem short_states (hlens : LensBounded t) (hproduct : t.maxTokenLen < 2 ^ 30) : ∀ {fuel : Nat} {tokens : List Nat},
    Short t tokens → ∀ state ∈ t.mergeStates fuel tokens, Short t state
  | 0, tokens, h, state, hs => by
    rw [List.mem_singleton.1 hs]
    exact h
  | fuel + 1, tokens, h, state, hs => by
    rw [mergeStates] at hs
    cases hbest : t.bestPair tokens with
    | none =>
      rw [hbest] at hs
      rw [List.mem_singleton.1 hs]
      exact h
    | some p =>
      rw [hbest] at hs
      rcases List.mem_cons.1 hs with rfl | hs
      · exact h
      · exact short_states hlens hproduct (short_merge hlens hproduct h hbest) state hs

theorem short_mergeLoop (hlens : LensBounded t) (hproduct : t.maxTokenLen < 2 ^ 30) : ∀ {fuel : Nat} {tokens : List Nat},
    Short t tokens → Short t (t.mergeLoop fuel tokens)
  | 0, tokens, h => h
  | fuel + 1, tokens, h => by
    rw [mergeLoop]
    cases hbest : t.bestPair tokens with
    | none => exact h
    | some p => exact short_mergeLoop hlens hproduct (short_merge hlens hproduct h hbest)

theorem states_length_le : ∀ {fuel : Nat} {tokens : List Nat}, ∀ state ∈ t.mergeStates fuel tokens, state.length ≤ tokens.length
  | 0, tokens, state, hs => by rw [List.mem_singleton.1 hs]
  | fuel + 1, tokens, state, hs => by
    rw [mergeStates] at hs
    cases hbest : t.bestPair tokens with
    | none =>
      rw [hbest] at hs
      rw [List.mem_singleton.1 hs]
    | some p =>
      rw [hbest] at hs
      have hlen := (length_mergeAt_lt hbest).2
      rcases List.mem_cons.1 hs with rfl | hs
      · exact le_refl _
      · have := states_length_le state hs
        omega

theorem pairSafe_of_short (hlens : LensBounded t) (hproduct : t.maxTokenLen < 2 ^ 30) {tokens : List Nat} (h : Short t tokens) {a b : Nat}
    (hab : [a, b] <:+: tokens) : t.PairSafe a b := by
  have ha := (h a (hab.subset (by simp))).2
  have hb := (h b (hab.subset (by simp))).2
  refine ⟨⟨by omega, by omega⟩, by omega, fun hfits => ?_⟩
  rw [mergeLen_eq (by omega), mergeBound_eq hlens hproduct] at hfits
  unfold mergeBufSize
  omega

/-! ## A segment -/

/-- Neighbours that no merge joins have no token of their own in the vocabulary that is short enough. -/
theorem not_merged_of_short (hlens : LensBounded t) (hproduct : t.maxTokenLen < 2 ^ 30) {tokens : List Nat} (h : Short t tokens) {a b : Nat}
    (hab : [a, b] <:+: tokens) (hmerged : t.mergedToken a b = none) {id : Nat} (hid : id < t.vocabSize)
    (hstr : t.str id = t.str a ++ t.str b) : ¬ ((t.str a ++ t.str b).length : Int) ≤ 2 * t.maxTokenLen := by
  have hsum := (pairSafe_of_short hlens hproduct h hab).sum
  intro hle
  rw [List.length_append] at hle
  unfold mergedToken at hmerged
  rw [mergeLen_eq hsum, mergeBound_eq hlens hproduct, if_neg (by omega)] at hmerged
  exact t.lookup_none hmerged hid hstr

/-- Under a negative bound no pair is taken. -/
theorem bestPair_overflow (hlens : LensBounded t) (hproduct : 2 ^ 30 ≤ t.maxTokenLen) {tokens : List Nat}
    (hsums : ∀ a b, [a, b] <:+: tokens → (t.str a).length + (t.str b).length < 2 ^ 31) : t.bestPair tokens = none := by
  cases hbest : t.bestPair tokens with
  | none => rfl
  | some p =>
    obtain ⟨pre, a, b, post, rfl, -, hmerged⟩ := bestPair_some hbest
    have hsum := hsums a b ⟨pre, post, by simp⟩
    have hneg := mergeBound_neg hlens hproduct
    unfold mergedToken at hmerged
    rw [mergeLen_eq hsum, if_pos (by omega)] at hmerged
    cases hmerged

/-- Neighbours among the first tokens are the tokens of neighbouring bytes. -/
theorem byteTokens_pair {text : List UInt8} {a b : Nat} (hab : [a, b] <:+: text.map t.byteToken) :
    ∃ c d, [c, d] <:+: text ∧ a = t.byteToken c ∧ b = t.byteToken d := by
  obtain ⟨bytes, hbytes, heq⟩ := List.infix_map_iff.1 hab
  obtain ⟨c, rest, rfl, rfl, hrest⟩ := List.map_eq_cons_iff.1 heq.symm
  obtain ⟨d, rest', rfl, rfl, hnil⟩ := List.map_eq_cons_iff.1 hrest
  rw [List.map_eq_nil_iff.1 hnil] at hbytes
  exact ⟨c, d, hbytes, rfl, rfl⟩

theorem byteTokens_lens (hbytes : HasBytes t) {text : List UInt8} {a b : Nat} (hab : [a, b] <:+: text.map t.byteToken) :
    (t.str a).length ≤ 2 ∧ (t.str b).length ≤ 2 := by
  obtain ⟨c, d, -, rfl, rfl⟩ := byteTokens_pair hab
  rw [(byteToken_spec hbytes c).2, (byteToken_spec hbytes d).2]
  exact ⟨(length_byteUnicode c).2, (length_byteUnicode d).2⟩

theorem bestPair_bytes_overflow (hbytes : HasBytes t) (hlens : LensBounded t) (hproduct : 2 ^ 30 ≤ t.maxTokenLen)
    (text : List UInt8) : t.bestPair (text.map t.byteToken) = none :=
  bestPair_overflow hlens hproduct fun a b hab => by
    have := byteTokens_lens hbytes hab
    omega

/-- Where the bound wraps, a segment stays as it starts. -/
theorem segmentTokens_overflow (hbytes : HasBytes t) (hlens : LensBounded t) (hproduct : 2 ^ 30 ≤ t.maxTokenLen)
    (text : List UInt8) : t.segmentTokens text = text.map t.byteToken := by
  unfold segmentTokens
  cases text with
  | nil => rfl
  | cons c text => rw [List.length_cons, mergeLoop, bestPair_bytes_overflow hbytes hlens hproduct]

theorem mergeStates_overflow (hbytes : HasBytes t) (hlens : LensBounded t) (hproduct : 2 ^ 30 ≤ t.maxTokenLen)
    (text : List UInt8) (fuel : Nat) : t.mergeStates fuel (text.map t.byteToken) = [text.map t.byteToken] := by
  cases fuel with
  | zero => rfl
  | succ fuel => rw [mergeStates, bestPair_bytes_overflow hbytes hlens hproduct]

/-- What holds of a segment, whether the bound wraps or not, except that no pair is left. -/
theorem segment_pairs (hbytes : HasBytes t) (hlens : LensBounded t) (text : List UInt8) :
    ∀ state ∈ t.mergeStates text.length (text.map t.byteToken), ∀ a b, [a, b] <:+: state → t.PairSafe a b := by
  intro state hs a b hab
  by_cases hproduct : t.maxTokenLen < 2 ^ 30
  · exact pairSafe_of_short hlens hproduct (short_states hlens hproduct (short_bytes hbytes hlens text) state hs) hab
  · rw [mergeStates_overflow hbytes hlens (by omega), List.mem_singleton] at hs
    subst hs
    have hle := byteTokens_lens hbytes hab
    have hneg := mergeBound_neg hlens (by omega)
    refine ⟨⟨by omega, by omega⟩, by omega, fun hfits => ?_⟩
    rw [mergeLen_eq (by omega)] at hfits
    omega

theorem segmentPost (hbytes : HasBytes t) (hscores : ScoresAbove t) (hlens : LensBounded t) {text : List UInt8}
    (hfits : t.maxTokenLen < 2 ^ 30 ∨ t.NoBytePair text) : t.SegmentPost text (t.segmentTokens text) := by
  have hends : t.bestPair (t.segmentTokens text) = none := mergeLoop_ends (by rw [List.length_map])
  refine ⟨?_, fun a b hab id hid hstr => ?_, ⟨rfl, hends⟩, segment_pairs hbytes hlens text⟩
  · unfold segmentTokens
    rw [mergeLoop_spells, List.flatMap_map]
    exact List.flatMap_congr fun c _ => (byteToken_spec hbytes c).2
  · by_cases hproduct : t.maxTokenLen < 2 ^ 30
    · exact not_merged_of_short hlens hproduct (short_mergeLoop hlens hproduct (short_bytes hbytes hlens text)) hab
        (bestPair_none hscores hends hab) hid hstr
    · -- the pair is one of bytes, and there is none in the vocabulary
      rw [segmentTokens_overflow hbytes hlens (by omega)] at hab
      obtain ⟨c, d, hcd, rfl, rfl⟩ := byteTokens_pair hab
      rw [(byteToken_spec hbytes c).2, (byteToken_spec hbytes d).2] at hstr
      exact absurd hstr (hfits.resolve_left hproduct c d hcd id hid)

/-- Where the bound wraps, a pair of bytes in the vocabulary is left. -/
theorem SegmentPost.noBytePair (hbytes : HasBytes t) (hlens : LensBounded t) (hproduct : 2 ^ 30 ≤ t.maxTokenLen)
    {text : List UInt8} {tokens : List Nat} (h : t.SegmentPost text tokens) : t.NoBytePair text := by
  intro c d hcd id hid hstr
  have htokens := h.ends.1.trans (segmentTokens_overflow hbytes hlens hproduct text)
  have hab : [t.byteToken c, t.byteToken d] <:+: tokens := by
    rw [htokens]
    exact List.infix_map_iff.2 ⟨[c, d], hcd, rfl⟩
  rw [← (byteToken_spec hbytes c).2, ← (byteToken_spec hbytes d).2] at hstr
  refine h.maximal _ _ hab id hid hstr ?_
  have hc := (length_byteUnicode c).2
  have hd := (length_byteUnicode d).2
  rw [List.length_append, (byteToken_spec hbytes c).2, (byteToken_spec hbytes d).2]
  omega

/-! ## The cuts -/

theorem isLongest_of_match {s : List UInt8} {len id : Nat} (h : t.matchSpecialToken s = some (len, id)) :
    t.IsLongest s len id := by
  obtain ⟨hpos, hle, -, hstr⟩ := matchSpecialToken_some h
  refine ⟨hpos, hle, hstr, matchSpecialToken_mem h, fun w hw hpre => ?_⟩
  have := matchSpecialToken_longest hw hpre
  rwa [h] at this

theorem no_special_of_no_match {s : List UInt8} (h : t.matchSpecialToken s = none) : ∀ w ∈ t.specialStrings, ¬ w <+: s := by
  intro w hw hpre
  have hle := matchSpecialToken_longest hw hpre
  rw [h] at hle
  exact specialStrings_ne_nil hw (List.length_eq_zero_iff.1 (Nat.le_zero.1 hle))

/-- A plain segment ends where the text does or a special token starts. -/
theorem plainLength_next : ∀ s : List UInt8, s.drop (t.plainLength s) = [] ∨
    ∃ m, t.matchSpecialToken (s.drop (t.plainLength s)) = some m
  | [] => .inl rfl
  | c :: s => by
    rw [plainLength]
    split
    · next h => exact .inr (Option.isSome_iff_exists.1 h)
    · exact plainLength_next s

theorem isPlain_of_no_match {c : UInt8} {s : List UInt8} (h : t.matchSpecialToken (c :: s) = none) :
    t.IsPlain (c :: s) (t.plainLength (c :: s)) := by
  refine ⟨plainLength_pos h, plainLength_le _, fun i hi => no_special_of_no_match (plainLength_no_match hi), ?_⟩
  rcases @plainLength_next t (c :: s) with hnil | ⟨m, hm⟩
  · exact .inl hnil
  · exact .inr ⟨_, matchSpecialToken_mem hm, List.take_prefix _ _⟩

/-- The tokens behind the ones written before satisfy the postcondition of the cuts. -/
theorem encodeCuts_post (hbytes : HasBytes t) (hscores : ScoresAbove t) (hlens : LensBounded t) {maxTokens : Nat}
    {s : List UInt8} {cs : List Cut} (hcuts : Segmented t s cs) :
    (t.maxTokenLen < 2 ^ 30 ∨ ∀ segment ∈ plainTexts s cs, t.NoBytePair segment) →
      ∀ {tokens out : List Nat}, tokens.length ≤ maxTokens →
      t.encodeCuts maxTokens s cs tokens = some out → ∃ more, out = tokens ++ more ∧ out.length ≤ maxTokens ∧
        t.CutsPost s cs more ∧ ∀ w ∈ t.cutWrites s cs tokens.length, w < maxTokens := by
  induction hcuts with
  | nil =>
    intro _ tokens out hlen h
    cases h
    exact ⟨[], (List.append_nil _).symm, hlen, ⟨rfl, rfl⟩, nofun⟩
  | @special c s len id cs hmatch rest ih =>
    intro hfits tokens out hlen h
    rw [encodeCuts] at h
    split at h
    · cases h
    · next hroom =>
      obtain ⟨more, rfl, hout, hpost, hwrites⟩ := ih hfits (by rw [List.length_append, List.length_singleton]; omega) h
      refine ⟨id :: more, by rw [List.append_assoc]; rfl, hout, ⟨isLongest_of_match hmatch, more, rfl, hpost⟩, fun w hw => ?_⟩
      rw [cutWrites] at hw
      rcases List.mem_cons.1 hw with rfl | hw
      · omega
      · exact hwrites w (by rwa [List.length_append, List.length_singleton])
  | @plain c s cs hmatch rest ih =>
    intro hfits tokens out hlen h
    have hplain := isPlain_of_no_match hmatch
    rw [encodeCuts, encodeSegment_eq] at h
    split at h
    · cases h
    · next segment hsegment =>
      split at hsegment
      · next hroom =>
        cases hsegment
        have hshort := segmentTokens_length_le (t := t) ((c :: s).take (t.plainLength (c :: s)))
        obtain ⟨more, rfl, hout, hpost, hwrites⟩ := ih
          (hfits.imp_right fun hp segment hs => hp segment (List.mem_cons_of_mem _ hs)) (by rw [List.length_append]; omega) h
        refine ⟨t.segmentTokens ((c :: s).take (t.plainLength (c :: s))) ++ more, by rw [List.append_assoc], hout,
          ⟨hplain, _, more, rfl, ?_, hpost⟩, fun w hw => ?_⟩
        · exact segmentPost hbytes hscores hlens (hfits.imp_right fun hp => hp _ List.mem_cons_self)
        · rw [cutWrites] at hw
          rcases List.mem_append.1 hw with hw | hw
          · obtain ⟨v, hv, rfl⟩ := List.mem_map.1 hw
            have := segmentWrites_lt hv
            omega
          · exact hwrites w (by rwa [List.length_append])
      · cases hsegment

theorem CutsPost.noBytePair (hbytes : HasBytes t) (hlens : LensBounded t) (hproduct : 2 ^ 30 ≤ t.maxTokenLen) :
    ∀ {cs : List Cut} {s : List UInt8} {tokens : List Nat}, t.CutsPost s cs tokens →
      ∀ segment ∈ plainTexts s cs, t.NoBytePair segment
  | [], _, _, _, _, hs => absurd hs List.not_mem_nil
  | .special _ _ :: _, _, _, h, segment, hs => by
    obtain ⟨-, rest, -, hrest⟩ := h
    exact hrest.noBytePair hbytes hlens hproduct segment hs
  | .plain _ :: _, _, _, h, segment, hs => by
    obtain ⟨-, _, rest, -, hsegment, hrest⟩ := h
    rcases List.mem_cons.1 hs with rfl | hs
    · exact hsegment.noBytePair hbytes hlens hproduct
    · exact hrest.noBytePair hbytes hlens hproduct segment hs

/-! ## The loaders -/

theorem maxLen_spec : ∀ (vocab : List (List UInt8)) (m : Int),
    m ≤ vocab.foldl (fun m s => if m < toInt32 s.length then toInt32 s.length else m) m ∧
      ∀ s ∈ vocab, toInt32 s.length ≤ vocab.foldl (fun m s => if m < toInt32 s.length then toInt32 s.length else m) m
  | [], m => ⟨le_refl _, nofun⟩
  | s :: vocab, m => by
    obtain ⟨hle, hall⟩ := maxLen_spec vocab (if m < toInt32 s.length then toInt32 s.length else m)
    rw [List.foldl_cons]
    have hstep : m ≤ (if m < toInt32 s.length then toInt32 s.length else m) ∧
        toInt32 s.length ≤ if m < toInt32 s.length then toInt32 s.length else m := by
      split <;> omega
    refine ⟨hstep.1.trans hle, fun w hw => ?_⟩
    rcases List.mem_cons.1 hw with rfl | hw
    · exact hstep.2.trans hle
    · exact hall w hw

theorem toInt32_lt (n : Nat) : toInt32 n < 2 ^ 31 := by
  unfold toInt32
  have := Nat.mod_lt n (show 0 < 2 ^ 32 by norm_num)
  split <;> omega

theorem maxLen_lt (vocab : List (List UInt8)) : ∀ m : Int, m < 2 ^ 31 →
    vocab.foldl (fun m s => if m < toInt32 s.length then toInt32 s.length else m) m < 2 ^ 31 := by
  induction vocab with
  | nil => exact fun m hm => hm
  | cons s vocab ih =>
    intro m hm
    rw [List.foldl_cons]
    refine ih _ ?_
    split
    · exact toInt32_lt s.length
    · exact hm

theorem lensBounded_gguf {hdr : GGUFTokenizerMeta} (h : tokenizerLoadFromGguf hdr = some t) : LensBounded t := by
  unfold tokenizerLoadFromGguf at h
  split at h
  · next elems htokens =>
    split at h
    · cases h
    · cases h
      obtain ⟨hle, hall⟩ := maxLen_spec (elems.map untilNul) 0
      refine ⟨hle, maxLen_lt _ 0 (by norm_num), fun id hid => ?_⟩
      unfold str
      dsimp only at hid ⊢
      have hlt : id < (elems.map untilNul).length := lt_of_lt_of_le hid (toInt32_toNat_le _)
      rw [List.getD_eq_getElem?_getD, List.getElem?_eq_getElem hlt, Option.getD_some]
      exact hall _ (List.getElem_mem hlt)
  · cases h

theorem readToken_len {maxTokenLen : Int} (hmax : maxTokenLen ≤ 4096) {bytes rest : List UInt8} {token : Nat × List UInt8}
    (h : readToken maxTokenLen bytes = some (token, rest)) : toInt32 token.2.length ≤ maxTokenLen := by
  unfold readToken at h
  dsimp only at h
  split at h
  · cases h
  split at h
  · cases h
  split at h
  · cases h
  · next hneg _ =>
    cases h
    dsimp only
    have hle := length_untilNul_le ((bytes.drop 8).take (toInt32 (rd32 bytes 4)).toNat)
    rw [List.length_take] at hle
    rw [toInt32_of_lt (by omega)]
    omega

theorem readTokens_len {maxTokenLen : Int} (hmax : maxTokenLen ≤ 4096) : ∀ {n : Nat} {bytes : List UInt8}
    {tokens : List (Nat × List UInt8)}, readTokens maxTokenLen n bytes = some tokens →
    ∀ p ∈ tokens, toInt32 p.2.length ≤ maxTokenLen
  | 0, _, _, h, p, hp => by
    cases h
    cases hp
  | n + 1, bytes, tokens, h, p, hp => by
    rw [readTokens, Option.bind_eq_bind, Option.bind_eq_some_iff] at h
    obtain ⟨⟨token, rest⟩, htoken, h⟩ := h
    obtain ⟨tokens', htokens, h⟩ := Option.bind_eq_some_iff.1 h
    cases h
    rcases List.mem_cons.1 hp with rfl | hp
    · exact readToken_len hmax htoken
    · exact readTokens_len hmax htokens p hp

theorem tokenizerLoad_cases {file : List UInt8} : tokenizerLoad file = some t →
    0 < t.maxTokenLen ∧ t.maxTokenLen ≤ 4096 ∧ ∃ n bytes tokens,
      readTokens t.maxTokenLen n bytes = some tokens ∧ t.vocab = tokens.map Prod.snd := by
  fun_cases tokenizerLoad file
  · nofun
  · nofun
  · nofun
  · nofun
  · next hmax tokens htokens _ _ =>
    intro h
    cases h
    dsimp only at hmax ⊢
    exact ⟨by omega, by omega, _, _, tokens, htokens, rfl⟩

theorem lensBounded_bin {file : List UInt8} (h : tokenizerLoad file = some t) : LensBounded t := by
  obtain ⟨hpos, hmax, n, bytes, tokens, htokens, hvocab⟩ := tokenizerLoad_cases h
  refine ⟨hpos.le, by omega, fun id hid => ?_⟩
  have hlt : id < (tokens.map Prod.snd).length := hvocab ▸ hid.trans_le t.size_le
  unfold str
  rw [hvocab, List.getD_eq_getElem?_getD, List.getElem?_eq_getElem hlt, Option.getD_some, List.getElem_map]
  exact readTokens_len hmax htokens _ (List.getElem_mem _)

theorem Loaded.lensBounded (h : Loaded t) : LensBounded t := by
  rcases h with ⟨hdr, h⟩ | ⟨file, h⟩
  · exact lensBounded_gguf h
  · exact lensBounded_bin h

/-- The postcondition of the encoder holds exactly if the bound of the merge loop does not wrap, or no plain segment has
two neighbouring bytes that are a token together. -/
theorem encode_post_iff (hloaded : Loaded t) (hbytes : HasBytes t) (hscores : ScoresAbove t) {text : List UInt8}
    {maxTokens : Int} {tokens : List Nat} (h : t.encode text maxTokens = some tokens) :
    t.EncodePost text maxTokens tokens ↔ t.BoundFits text := by
  obtain ⟨hpos, -, hencode⟩ := encode_eq_some.1 h
  have hlens := hloaded.lensBounded
  constructor
  · intro hpost
    by_cases hproduct : t.maxTokenLen < 2 ^ 30
    · exact .inl hproduct
    · exact .inr (hpost.cuts.noBytePair hbytes hlens (by omega))
  · intro hfits
    obtain ⟨more, hmore, hlen, hpost, hwrites⟩ := encodeCuts_post hbytes hscores hlens
      (cuts_segmented text.length text (le_refl _)) hfits (Nat.zero_le _) hencode
    rw [List.nil_append] at hmore
    subst hmore
    exact ⟨by omega, fun w hw => by have := hwrites w hw; omega, hpost⟩

/-! ## A token of 2^30 letters -/

/-- The characters of the bytes, a user defined token and the token `ab`. -/
def pairVocabulary (token : List UInt8) : GGUFTokenizerMeta := charVocabularyWith [(token, 4), (ascii "ab", 1)]

theorem pairVocabulary_loads (token : List UInt8) : ∃ t, tokenizerLoadFromGguf (pairVocabulary token) = some t := by
  unfold tokenizerLoadFromGguf pairVocabulary charVocabularyWith
  dsimp only
  rw [if_neg (byteUnicodeTable_append_ne_nil _)]
  exact ⟨_, rfl⟩

theorem hasBytes_pairVocabulary {token : List UInt8} (h : tokenizerLoadFromGguf (pairVocabulary token) = some t) : HasBytes t :=
  hasBytes_charVocabularyWith h (by norm_num)

theorem pairVocabulary_token {token : List UInt8} (hnul : 0 ∉ token)
    (h : tokenizerLoadFromGguf (pairVocabulary token) = some t) :
    t.vocabSize = 258 ∧ t.str 256 = token ∧ t.str 257 = ascii "ab" :=
  ⟨(charVocabularyWith_loaded h (by norm_num)).1, charVocabularyWith_word (i := 0) h (by norm_num) rfl hnul,
    charVocabularyWith_word (i := 1) h (by norm_num) rfl (by decide)⟩

theorem scoresAbove_pairVocabulary {token : List UInt8} (h : tokenizerLoadFromGguf (pairVocabulary token) = some t) :
    ScoresAbove t := by
  intro id _
  rw [charVocabularyWith_score h]
  decide

theorem specialsOf_type {vocab : List (List UInt8)} {n : Nat} {types : List Nat} {p : List UInt8 × Nat}
    (h : p ∈ specialsOf vocab n types) : types[p.2]? = some 3 ∨ types[p.2]? = some 4 := by
  obtain ⟨i, -, hp⟩ := List.mem_filterMap.1 h
  split at hp
  · next ty htype =>
    split at hp
    · next hcond =>
      cases hp
      rcases hcond.1 with rfl | rfl
      · exact .inl htype
      · exact .inr htype
    · cases hp
  · cases hp

theorem eq_of_special_type {n i : Nat} {rest : List Nat} (hrest : ∀ ty ∈ rest, ty = 1)
    (h : (List.replicate n 1 ++ 4 :: rest)[i]? = some 3 ∨ (List.replicate n 1 ++ 4 :: rest)[i]? = some 4) : n = i := by
  by_contra hne
  have hone : ∀ ty, (List.replicate n 1 ++ 4 :: rest)[i]? = some ty → ty = 1 := by
    intro ty hty
    rcases Nat.lt_or_ge i n with hlt | hge
    · rw [List.getElem?_append_left (by rw [List.length_replicate]; omega), List.getElem?_replicate, if_pos hlt] at hty
      exact (Option.some.inj hty).symm
    · obtain ⟨k, rfl⟩ := Nat.exists_eq_add_of_lt (lt_of_le_of_ne hge hne)
      rw [List.getElem?_append_right (by rw [List.length_replicate]; omega), List.length_replicate,
        show n + k + 1 - n = k + 1 from by omega, List.getElem?_cons_succ] at hty
      exact hrest ty (List.mem_of_getElem? hty)
  rcases h with h | h <;> cases hone _ h

theorem pairVocabulary_specials {token : List UInt8} (hnul : 0 ∉ token) (hlong : 2 < token.length)
    (h : tokenizerLoadFromGguf (pairVocabulary token) = some t) : ∀ w ∈ t.specialStrings, 2 < w.length := by
  intro w hw
  obtain ⟨-, hstr, -⟩ := pairVocabulary_token hnul h
  have htypes : ∀ p ∈ t.specialTokens, p.2 = 256 := by
    intro p hp
    unfold tokenizerLoadFromGguf pairVocabulary charVocabularyWith at h
    dsimp only at h
    rw [if_neg (byteUnicodeTable_append_ne_nil _)] at h
    cases h
    dsimp only [tokenTypes] at hp
    exact (eq_of_special_type (by simp) (specialsOf_type hp)).symm
  unfold specialStrings at hw
  split at hw
  · obtain ⟨p, hp, rfl⟩ := List.mem_map.1 hw
    have htoken : t.str p.2 = p.1 := (t.special p hp).2.2
    rw [← htoken, htypes p hp, hstr]
    exact hlong
  · obtain ⟨p, hp, rfl⟩ := List.mem_map.1 (List.mem_filter.1 hw).1
    have hlens : ∀ p ∈ fallbackSpecials, 2 < p.1.length := by decide
    exact hlens p hp

/-- Two letters are a plain segment. -/
theorem encode_ab {token : List UInt8} (hnul : 0 ∉ token) (hlong : 2 < token.length)
    (h : tokenizerLoadFromGguf (pairVocabulary token) = some t) :
    t.cuts (ascii "ab").length (ascii "ab") = [.plain 2] ∧ t.encode (ascii "ab") 8 = some (t.segmentTokens (ascii "ab")) := by
  have hspecials := pairVocabulary_specials hnul hlong h
  have hnone : ∀ s : List UInt8, s.length ≤ 2 → t.matchSpecialToken s = none := by
    intro s hs
    by_contra hmatch
    obtain ⟨m, hm⟩ := Option.ne_none_iff_exists'.1 hmatch
    have := hspecials _ (matchSpecialToken_mem hm)
    rw [List.length_take] at this
    omega
  have hplain : t.plainLength (ascii "ab") = 2 := by
    rw [show ascii "ab" = [97, 98] from by decide, plainLength, hnone _ (le_refl _), plainLength, hnone _ (by decide)]
    rfl
  have hcuts : t.cuts (ascii "ab").length (ascii "ab") = [.plain 2] := by
    rw [show ascii "ab" = [97, 98] from by decide] at hplain ⊢
    rw [List.length_cons, cuts, hnone _ (le_refl _)]
    dsimp only
    rw [hplain]
    rfl
  refine ⟨hcuts, encode_eq_some.2 ⟨by decide, rfl, ?_⟩⟩
  rw [hcuts, encodeCuts, encodeSegment_eq]
  rfl

theorem encode_post_iff_ab : ∃ t, tokenizerLoadFromGguf (pairVocabulary (ascii "<end>")) = some t ∧
    t.encode (ascii "ab") 8 = some [257] ∧ t.EncodePost (ascii "ab") 8 [257] := by
  obtain ⟨t, ht⟩ := pairVocabulary_loads (ascii "<end>")
  have hfits : t.maxTokenLen < 2 ^ 30 := by
    cases ht
    decide +kernel
  have hletter : ∀ c ∈ ascii "ab", t.byteToken c = c.toNat := by
    intro c hc
    refine charVocabularyWith_byteToken ht (by decide) ?_
    revert c
    decide +kernel
  have hmerge : t.mergedToken 97 98 = some 257 := by
    have hroom : ¬ t.mergeBound < t.mergeLen 97 98 ∧ t.str 97 ++ t.str 98 = ascii "ab" := by
      cases ht
      decide +kernel
    rw [mergedToken, if_neg hroom.1, hroom.2]
    exact charVocabularyWith_lookup ht (by decide) (by decide) (by decide +kernel)
  have hgt : Single.gt (t.score 257) lowestScore = true := by
    rw [charVocabularyWith_score ht]
    decide
  have hencode : t.encode (ascii "ab") 8 = some [257] := by
    have hsegment : t.encodeSegment (ascii "ab") 8 = some [257] := by
      rw [show ascii "ab" = [97, 98] from by decide]
      refine encodeSegment_pair (by decide) ?_ hgt
      rw [hletter 97 (by decide), hletter 98 (by decide)]
      exact hmerge
    rw [encodeSegment_eq, if_pos (by decide)] at hsegment
    rw [(encode_ab (by decide) (by decide) ht).2, hsegment]
  exact ⟨t, ht, hencode, (encode_post_iff (.inl ⟨_, ht⟩) (hasBytes_pairVocabulary ht) (scoresAbove_pairVocabulary ht)
    hencode).2 (.inl hfits)⟩

theorem pairVocabulary_maxTokenLen {n : Nat} (hint : n < 2 ^ 31)
    (h : tokenizerLoadFromGguf (pairVocabulary (List.replicate n 97)) = some t) : (n : Int) ≤ t.maxTokenLen := by
  obtain ⟨hsize, hstr, -⟩ := pairVocabulary_token (fun hmem => absurd (List.eq_of_mem_replicate hmem) (by decide)) h
  have hle := (lensBounded_gguf h).le 256 (by rw [hsize]; decide)
  rwa [hstr, List.length_replicate, toInt32_of_lt hint] at hle

/-- With a token of 2^30 letters the two letters of `ab` stay two tokens, although `ab` is a token. -/
theorem product_overflows : ¬ ∀ (t : Tokenizer) (text : List UInt8) (maxTokens : Int) (tokens : List Nat), Loaded t →
    HasBytes t → ScoresAbove t → t.encode text maxTokens = some tokens → t.EncodePost text maxTokens tokens := by
  intro hall
  obtain ⟨t, ht⟩ := pairVocabulary_loads (List.replicate (2 ^ 30) 97)
  have hnul : (0 : UInt8) ∉ List.replicate (2 ^ 30) 97 := fun hmem => absurd (List.eq_of_mem_replicate hmem) (by decide)
  obtain ⟨hcuts, hencode⟩ := encode_ab hnul (by rw [List.length_replicate]; norm_num) ht
  obtain ⟨hsize, -, hab⟩ := pairVocabulary_token hnul ht
  have hbytes := hasBytes_pairVocabulary ht
  have hpost := hall t (ascii "ab") 8 _ (.inl ⟨_, ht⟩) hbytes (scoresAbove_pairVocabulary ht) hencode
  have hnone := hpost.cuts.noBytePair hbytes (lensBounded_gguf ht) (pairVocabulary_maxTokenLen (by norm_num) ht)
    (ascii "ab") (by rw [hcuts]; exact List.mem_singleton_self _)
  refine hnone 97 98 (List.infix_refl _) 257 (by rw [hsize]; decide) (hab.trans ?_)
  decide +kernel

end BitForge.Tokenizer
