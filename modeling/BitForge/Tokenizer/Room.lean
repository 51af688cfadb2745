/-
How much room the encoder needs: a plain segment is written with one token for each of its bytes before the merges, so a
text whose tokens fit a buffer is encoded in it only if these bytes fit behind the tokens before them.
-/
import BitForge.Tokenizer.RankOrder
import BitForge.Tokenizer.Segments
import BitForge.Transformer.Generate

namespace BitForge.Tokenizer

open Lib

variable (t : Tokenizer)

/-- The tokens of a plain segment. -/
def segmentTokens (text : List UInt8) : List Nat := t.mergeLoop text.length (text.map t.byteToken)

/-- The bytes of each plain segment fit behind the `n` tokens that are written when it is reached. -/
def SegmentsFit (maxTokens : Nat) : List UInt8 → List Cut → Nat → Prop
  | _, [], _ => True
  | s, .special len _ :: cs, n => SegmentsFit maxTokens (s.drop len) cs (n + 1)
  | s, .plain len :: cs, n =>
    n + (s.take len).length ≤ maxTokens ∧
      SegmentsFit maxTokens (s.drop len) cs (n + (t.segmentTokens (s.take len)).length)

/-- A buffer of `maxTokens` tokens has room for each segment of the text when it is reached. -/
def HasRoom (text : List UInt8) (maxTokens : Int) : Prop :=
  0 < maxTokens ∧ t.SegmentsFit maxTokens.toNat text (t.cuts text.length text) 0

variable {t}

theorem initialTokens_eq {maxTokens : Nat} : ∀ (text : List UInt8) (n : Nat),
    t.initialTokens maxTokens n text = if text = [] ∨ n + text.length ≤ maxTokens then some (text.map t.byteToken) else none
  | [], n => by rw [initialTokens, if_pos (.inl rfl), List.map_nil]
  | c :: text, n => by
    have hiff : (c :: text = [] ∨ n + (c :: text).length ≤ maxTokens) ↔ n + text.length < maxTokens := by
      rw [List.length_cons]
      constructor
      · rintro (hnil | hle)
        · cases hnil
        · omega
      · exact fun h => .inr (by omega)
    rw [initialTokens, initialTokens_eq text (n + 1)]
    simp only [hiff]
    by_cases hfull : maxTokens ≤ n
    · rw [if_pos hfull, if_neg (by omega)]
    rw [if_neg hfull]
    by_cases hfit : n + text.length < maxTokens
    · rw [if_pos hfit, if_pos (.inr (by omega)), Option.map_some, List.map_cons]
    · have hne : text ≠ [] := by
        rintro rfl
        exact hfit (by rw [List.length_nil]; omega)
      rw [if_neg hfit, if_neg (by rintro (hnil | hle); exacts [hne hnil, by omega]), Option.map_none]

/-- A segment is encoded if its bytes fit, and the tokens do not depend on the room. -/
theorem encodeSegment_eq (text : List UInt8) (maxTokens : Nat) :
    t.encodeSegment text maxTokens = if text.length ≤ maxTokens then some (t.segmentTokens text) else none := by
  have hiff : (text = [] ∨ 0 + text.length ≤ maxTokens) ↔ text.length ≤ maxTokens := by
    rw [Nat.zero_add]
    refine or_iff_right_of_imp ?_
    rintro rfl
    exact Nat.zero_le _
  unfold encodeSegment segmentTokens
  rw [initialTokens_eq]
  simp only [hiff]
  split
  · rw [Option.map_some, List.length_map]
  · rfl

theorem encodeCuts_length_le {maxTokens : Nat} : ∀ {cs : List Cut} {s : List UInt8} {tokens out : List Nat},
    t.encodeCuts maxTokens s cs tokens = some out → tokens.length ≤ out.length
  | [], s, tokens, out, h => by
    cases h
    exact le_refl _
  | .special len id :: cs, s, tokens, out, h => by
    rw [encodeCuts] at h
    split at h
    · cases h
    · have := encodeCuts_length_le h
      rw [List.length_append] at this
      omega
  | .plain len :: cs, s, tokens, out, h => by
    rw [encodeCuts] at h
    split at h
    · cases h
    · have := encodeCuts_length_le h
      rw [List.length_append] at this
      omega

/-- The cuts of a text that some buffer holds, in a smaller one. -/
theorem encodeCuts_smaller_iff {M₁ M₂ : Nat} (hM : M₁ ≤ M₂) : ∀ {cs : List Cut} {s : List UInt8} {tokens out : List Nat},
    t.encodeCuts M₂ s cs tokens = some out → out.length ≤ M₁ →
      (t.encodeCuts M₁ s cs tokens = some out ↔ t.SegmentsFit M₁ s cs tokens.length)
  | [], s, tokens, out, h, _ => iff_of_true h trivial
  | .special len id :: cs, s, tokens, out, h, hout => by
    rw [encodeCuts] at h
    split at h
    · cases h
    · have hlen := encodeCuts_length_le h
      have hrest := encodeCuts_smaller_iff hM h hout
      rw [List.length_append, List.length_singleton] at hlen hrest
      rw [encodeCuts, if_neg (by omega), hrest, SegmentsFit]
  | .plain len :: cs, s, tokens, out, h, hout => by
    rw [encodeCuts, encodeSegment_eq] at h
    by_cases hfit₂ : (s.take len).length ≤ M₂ - tokens.length
    · rw [if_pos hfit₂] at h
      have hlen := encodeCuts_length_le h
      have hrest := encodeCuts_smaller_iff hM h hout
      rw [List.length_append] at hlen hrest
      rw [encodeCuts, encodeSegment_eq, SegmentsFit]
      by_cases hfit₁ : (s.take len).length ≤ M₁ - tokens.length
      · rw [if_pos hfit₁]
        dsimp only
        rw [hrest]
        exact ⟨fun hfits => ⟨by omega, hfits⟩, And.right⟩
      · rw [if_neg hfit₁]
        exact iff_of_false nofun fun hfits => by omega
    · rw [if_neg hfit₂] at h
      cases h

/-- More room changes no tokens. -/
theorem encodeCuts_mono {M₁ M₂ : Nat} (hM : M₁ ≤ M₂) : ∀ {cs : List Cut} {s : List UInt8} {tokens out : List Nat},
    t.encodeCuts M₁ s cs tokens = some out → t.encodeCuts M₂ s cs tokens = some out
  | [], s, tokens, out, h => h
  | .special len id :: cs, s, tokens, out, h => by
    rw [encodeCuts] at h ⊢
    split at h
    · cases h
    · rw [if_neg (by omega)]
      exact encodeCuts_mono hM h
  | .plain len :: cs, s, tokens, out, h => by
    rw [encodeCuts, encodeSegment_eq] at h ⊢
    by_cases hfit : (s.take len).length ≤ M₁ - tokens.length
    · rw [if_pos hfit] at h
      rw [if_pos (by omega)]
      exact encodeCuts_mono hM h
    · rw [if_neg hfit] at h
      cases h

theorem encode_mono {text : List UInt8} {M₁ M₂ : Int} (hM : M₁ ≤ M₂) {tokens : List Nat}
    (h : t.encode text M₁ = some tokens) : t.encode text M₂ = some tokens := by
  obtain ⟨hpos, hcheck, hcuts⟩ := encode_eq_some.1 h
  exact encode_eq_some.2 ⟨by omega, hcheck, encodeCuts_mono (by omega) hcuts⟩

theorem encode_smaller_iff {text : List UInt8} {M₁ M₂ : Int} {tokens : List Nat} (h : t.encode text M₂ = some tokens)
    (hn : (tokens.length : Int) ≤ M₁) (hM : M₁ ≤ M₂) : t.encode text M₁ = some tokens ↔ t.HasRoom text M₁ := by
  obtain ⟨-, hcheck, hcuts⟩ := encode_eq_some.1 h
  have hle : M₁.toNat ≤ M₂.toNat := by omega
  have hiff := encodeCuts_smaller_iff hle hcuts (by omega)
  rw [encode_eq_some, hiff, HasRoom, List.length_nil]
  exact ⟨fun hall => ⟨hall.1, hall.2.2⟩, fun hroom => ⟨hroom.1, hcheck, hroom.2⟩⟩

/-! ## The prompt of `generate_with_callback` -/

open Transformer (Config encodePrompt vocabString)

/-- The text that `generate_with_callback` encodes. -/
def promptText (tok : Transformer.Tokenizer) (prompt : List UInt8) : Option (List UInt8) :=
  match tok.chatTemplate with
  | some template => tok.chatTemplateApply template prompt (vocabString tok tok.bosTokenId) (vocabString tok tok.eosTokenId)
  | none => some prompt

/-- The room that is left for it: the context, less the BOS token of a raw prompt. -/
def promptRoom (cfg : Config) (tok : Transformer.Tokenizer) : Int :=
  match tok.chatTemplate with
  | some _ => cfg.seqLen
  | none => cfg.seqLen - if cfg.bosTokenId > 0 ∨ tok.bosTokenId ≥ 0 then 1 else 0

/-- The encoder of `tok` is the one of `t`. -/
def EncodesWith (t : Tokenizer) (tok : Transformer.Tokenizer) : Prop :=
  tok.encode = fun text maxTokens => (t.encode text maxTokens).map (·.map Int.ofNat)

/-- The prompt is rejected exactly where its text is not encoded in the room of the context. -/
theorem encodePrompt_isSome_iff {cfg : Config} {tok : Transformer.Tokenizer} (htok : EncodesWith t tok)
    {prompt text : List UInt8} (htext : promptText tok prompt = some text) :
    (encodePrompt cfg tok prompt).isSome ↔ (t.encode text (promptRoom cfg tok)).isSome := by
  unfold promptText at htext
  unfold encodePrompt promptRoom
  cases htemplate : tok.chatTemplate with
  | some template =>
    rw [htemplate] at htext
    dsimp only at htext ⊢
    rw [htext, Option.bind_some, htok, Option.isSome_map]
  | none =>
    rw [htemplate] at htext
    cases htext
    dsimp only
    rw [Option.isSome_map, htok, Option.isSome_map]
    have hroom : ((if (if cfg.bosTokenId > 0 then cfg.bosTokenId else if tok.bosTokenId ≥ 0 then tok.bosTokenId else -1) ≥ 0
        then [if cfg.bosTokenId > 0 then cfg.bosTokenId else if tok.bosTokenId ≥ 0 then tok.bosTokenId else -1]
        else []) : List Int).length = if cfg.bosTokenId > 0 ∨ tok.bosTokenId ≥ 0 then 1 else 0 := by
      split_ifs <;> simp_all <;> omega
    rw [hroom]
    split <;> rfl

/-- Whether a text that a buffer of `M₂` tokens holds, with at most `M₁` tokens, is encoded in `M₁`, and with it whether
`generate_with_callback` accepts a prompt whose tokens fit the context: exactly if `M₁` has room for the bytes of every
plain segment. -/
theorem encode_room_iff {text : List UInt8} {M₁ M₂ : Int} {tokens : List Nat} (h : t.encode text M₂ = some tokens)
    (hn : (tokens.length : Int) ≤ M₁) (hM : M₁ ≤ M₂) :
    (t.encode text M₁ = some tokens ↔ t.HasRoom text M₁) ∧
      ∀ (cfg : Config) (tok : Transformer.Tokenizer) (prompt : List UInt8), EncodesWith t tok →
        promptText tok prompt = some text → promptRoom cfg tok = M₁ →
          ((encodePrompt cfg tok prompt).isSome ↔ t.HasRoom text M₁) := by
  have hiff := encode_smaller_iff h hn hM
  refine ⟨hiff, fun cfg tok prompt htok htext hroom => ?_⟩
  rw [encodePrompt_isSome_iff htok htext, hroom, ← hiff]
  constructor
  · intro hsome
    obtain ⟨out, hout⟩ := Option.isSome_iff_exists.1 hsome
    have hsame := (encode_mono hM hout).symm.trans h
    cases hsame
    exact hout
  · exact fun heq => by rw [heq]; rfl

theorem encode_room_iff_ab : ∃ t, tokenizerLoadFromGguf (abcVocabulary "a b") = some t ∧
    (t.encode (ascii "ab") 2 = some [3] ↔ t.HasRoom (ascii "ab") 2) :=
  ⟨_, rfl, (@encode_room_iff _ (ascii "ab") 2 8 [3] (by decide +kernel) (by decide) (by decide)).1⟩

/-- Two bytes that merge into one token do not fit a buffer of one token. -/
theorem spare_room_needed : ¬ ∀ (t : Tokenizer) (text : List UInt8) (M₁ M₂ : Int) (tokens : List Nat), M₁ ≤ M₂ →
    t.encode text M₂ = some tokens → (tokens.length : Int) ≤ M₁ → t.encode text M₁ = some tokens := by
  intro h
  obtain ⟨t, ht⟩ : ∃ t, tokenizerLoadFromGguf (abcVocabulary "a b") = some t := ⟨_, rfl⟩
  have hlarge : t.encode (ascii "ab") 2 = some [3] := by
    cases ht
    decide +kernel
  have hsmall : t.encode (ascii "ab") 1 = none := by
    cases ht
    decide +kernel
  have hsame := h t (ascii "ab") 1 2 [3] (by decide) hlarge (by decide)
  rw [hsmall] at hsame
  cases hsame

end BitForge.Tokenizer
