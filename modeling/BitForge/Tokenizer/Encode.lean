/-
The encoder (tokenizer_encode.c): a text is cut at its special tokens, each plain segment starts as
one token for each byte and the merge loop joins the adjacent pair of the highest score until no pair
of neighbours is a token.
-/
import BitForge.Tokenizer.Vocabulary
import BitForge.Tokenizer.IntSearch

namespace BitForge.Tokenizer

open Lib

/-- `g_byte_unicode`: the characters of the 256 bytes in UTF-8. -/
def byteUnicodeTable : List (List UInt8) :=
  [[0xc4, 0x80], [0xc4, 0x81], [0xc4, 0x82], [0xc4, 0x83], [0xc4, 0x84], [0xc4, 0x85], [0xc4, 0x86], [0xc4, 0x87],
   [0xc4, 0x88], [0xc4, 0x89], [0xc4, 0x8a], [0xc4, 0x8b], [0xc4, 0x8c], [0xc4, 0x8d], [0xc4, 0x8e], [0xc4, 0x8f],
   [0xc4, 0x90], [0xc4, 0x91], [0xc4, 0x92], [0xc4, 0x93], [0xc4, 0x94], [0xc4, 0x95], [0xc4, 0x96], [0xc4, 0x97],
   [0xc4, 0x98], [0xc4, 0x99], [0xc4, 0x9a], [0xc4, 0x9b], [0xc4, 0x9c], [0xc4, 0x9d], [0xc4, 0x9e], [0xc4, 0x9f],
   [0xc4, 0xa0], [0x21], [0x22], [0x23], [0x24], [0x25], [0x26], [0x27], [0x28], [0x29], [0x2a], [0x2b], [0x2c],
   [0x2d], [0x2e], [0x2f], [0x30], [0x31], [0x32], [0x33], [0x34], [0x35], [0x36], [0x37], [0x38], [0x39], [0x3a],
   [0x3b], [0x3c], [0x3d], [0x3e], [0x3f], [0x40], [0x41], [0x42], [0x43], [0x44], [0x45], [0x46], [0x47], [0x48],
   [0x49], [0x4a], [0x4b], [0x4c], [0x4d], [0x4e], [0x4f], [0x50], [0x51], [0x52], [0x53], [0x54], [0x55], [0x56],
   [0x57], [0x58], [0x59], [0x5a], [0x5b], [0x5c], [0x5d], [0x5e], [0x5f], [0x60], [0x61], [0x62], [0x63], [0x64],
   [0x65], [0x66], [0x67], [0x68], [0x69], [0x6a], [0x6b], [0x6c], [0x6d], [0x6e], [0x6f], [0x70], [0x71], [0x72],
   [0x73], [0x74], [0x75], [0x76], [0x77], [0x78], [0x79], [0x7a], [0x7b], [0x7c], [0x7d], [0x7e], [0xc4, 0xa1],
   [0xc4, 0xa2], [0xc4, 0xa3], [0xc4, 0xa4], [0xc4, 0xa5], [0xc4, 0xa6], [0xc4, 0xa7], [0xc4, 0xa8], [0xc4, 0xa9],
   [0xc4, 0xaa], [0xc4, 0xab], [0xc4, 0xac], [0xc4, 0xad], [0xc4, 0xae], [0xc4, 0xaf], [0xc4, 0xb0], [0xc4, 0xb1],
   [0xc4, 0xb2], [0xc4, 0xb3], [0xc4, 0xb4], [0xc4, 0xb5], [0xc4, 0xb6], [0xc4, 0xb7], [0xc4, 0xb8], [0xc4, 0xb9],
   [0xc4, 0xba], [0xc4, 0xbb], [0xc4, 0xbc], [0xc4, 0xbd], [0xc4, 0xbe], [0xc4, 0xbf], [0xc5, 0x80], [0xc5, 0x81],
   [0xc5, 0x82], [0xc2, 0xa1], [0xc2, 0xa2], [0xc2, 0xa3], [0xc2, 0xa4], [0xc2, 0xa5], [0xc2, 0xa6], [0xc2, 0xa7],
   [0xc2, 0xa8], [0xc2, 0xa9], [0xc2, 0xaa], [0xc2, 0xab], [0xc2, 0xac], [0xc5, 0x83], [0xc2, 0xae], [0xc2, 0xaf],
   [0xc2, 0xb0], [0xc2, 0xb1], [0xc2, 0xb2], [0xc2, 0xb3], [0xc2, 0xb4], [0xc2, 0xb5], [0xc2, 0xb6], [0xc2, 0xb7],
   [0xc2, 0xb8], [0xc2, 0xb9], [0xc2, 0xba], [0xc2, 0xbb], [0xc2, 0xbc], [0xc2, 0xbd], [0xc2, 0xbe], [0xc2, 0xbf],
   [0xc3, 0x80], [0xc3, 0x81], [0xc3, 0x82], [0xc3, 0x83], [0xc3, 0x84], [0xc3, 0x85], [0xc3, 0x86], [0xc3, 0x87],
   [0xc3, 0x88], [0xc3, 0x89], [0xc3, 0x8a], [0xc3, 0x8b], [0xc3, 0x8c], [0xc3, 0x8d], [0xc3, 0x8e], [0xc3, 0x8f],
   [0xc3, 0x90], [0xc3, 0x91], [0xc3, 0x92], [0xc3, 0x93], [0xc3, 0x94], [0xc3, 0x95], [0xc3, 0x96], [0xc3, 0x97],
   [0xc3, 0x98], [0xc3, 0x99], [0xc3, 0x9a], [0xc3, 0x9b], [0xc3, 0x9c], [0xc3, 0x9d], [0xc3, 0x9e], [0xc3, 0x9f],
   [0xc3, 0xa0], [0xc3, 0xa1], [0xc3, 0xa2], [0xc3, 0xa3], [0xc3, 0xa4], [0xc3, 0xa5], [0xc3, 0xa6], [0xc3, 0xa7],
   [0xc3, 0xa8], [0xc3, 0xa9], [0xc3, 0xaa], [0xc3, 0xab], [0xc3, 0xac], [0xc3, 0xad], [0xc3, 0xae], [0xc3, 0xaf],
   [0xc3, 0xb0], [0xc3, 0xb1], [0xc3, 0xb2], [0xc3, 0xb3], [0xc3, 0xb4], [0xc3, 0xb5], [0xc3, 0xb6], [0xc3, 0xb7],
   [0xc3, 0xb8], [0xc3, 0xb9], [0xc3, 0xba], [0xc3, 0xbb], [0xc3, 0xbc], [0xc3, 0xbd], [0xc3, 0xbe], [0xc3, 0xbf]]

/-- `g_byte_unicode[c]`. -/
def byteUnicode (c : UInt8) : List UInt8 := byteUnicodeTable.getD c.toNat []

variable (t : Tokenizer)

/-! ## A plain segment -/

/-- The first token of a byte: the one of its character, else `<unk>`, else token 0. -/
def byteToken (c : UInt8) : Nat :=
  match t.lookup (byteUnicode c) with
  | some id => id
  | none => (t.lookup (ascii "<unk>")).getD 0

/-- The loop over the bytes of a segment with `n` tokens written. -/
def initialTokens (maxTokens : Nat) : Nat → List UInt8 → Option (List Nat)
  | _, [] => some []
  | n, c :: text => if maxTokens ≤ n then none else (initialTokens maxTokens (n + 1) text).map (t.byteToken c :: ·)

theorem initialTokens_some {t : Tokenizer} {maxTokens : Nat} : ∀ {text : List UInt8} {n : Nat} {tokens : List Nat},
    t.initialTokens maxTokens n text = some tokens → tokens = text.map t.byteToken
  | [], _, _, h => (Option.some.inj h).symm
  | c :: text, n, tokens, h => by
    rw [initialTokens] at h
    split at h
    · cases h
    · obtain ⟨rest, hrest, rfl⟩ := Option.map_eq_some_iff.1 h
      rw [initialTokens_some hrest, List.map_cons]

/-- `t->max_token_len * 2`, a product of `int`s. -/
def mergeBound : Int := wrapInt (t.maxTokenLen * 2)

/-- `len1 + len2`. -/
def mergeLen (a b : Nat) : Int := wrapInt (toInt32 (t.str a).length + toInt32 (t.str b).length)

/-- The token that two neighbours merge into. -/
def mergedToken (a b : Nat) : Option Nat :=
  if t.mergeBound < t.mergeLen a b then none else t.lookup (t.str a ++ t.str b)

/-- `best_score`, and `best_idx` with `best_id`. -/
structure Best where
  score : Nat
  pair : Option (Nat × Nat)
deriving DecidableEq, Repr

/-- `-1e10f`. -/
def lowestScore : Nat := Single.neg (Single.ofNat 10000000000)

/-- One round of the scan: the pair at `i` is taken when its score is higher. -/
def Best.consider (best : Best) (i a b : Nat) : Best :=
  match t.mergedToken a b with
  | some id => if Single.gt (t.score id) best.score then ⟨t.score id, some (i, id)⟩ else best
  | none => best

/-- The scan of the adjacent pairs, the first of which is at `i`. -/
def scanPairs : Nat → Best → List Nat → Best
  | i, best, a :: b :: tokens => scanPairs (i + 1) (best.consider t i a b) (b :: tokens)
  | _, best, _ => best

def bestPair (tokens : List Nat) : Option (Nat × Nat) := (t.scanPairs 0 ⟨lowestScore, none⟩ tokens).pair

/-- The merge: the token replaces the pair, the tokens behind it move left. -/
def mergeAt (tokens : List Nat) (i id : Nat) : List Nat := tokens.take i ++ id :: tokens.drop (i + 2)

/-- The merge loop, each round of which leaves one token less. -/
def mergeLoop : Nat → List Nat → List Nat
  | 0, tokens => tokens
  | fuel + 1, tokens =>
    match t.bestPair tokens with
    | none => tokens
    | some (i, id) => mergeLoop fuel (mergeAt tokens i id)

/-- `tokenizer_encode_segment`; `none` is -1. -/
def encodeSegment (text : List UInt8) (maxTokens : Nat) : Option (List Nat) :=
  (t.initialTokens maxTokens 0 text).map fun tokens => t.mergeLoop tokens.length tokens

/-! ## Special tokens -/

def fallbackSpecials : List (List UInt8 × Nat) :=
  [(ascii "<|im_start|>", 12), (ascii "<|im_end|>", 10), (ascii "<end_of_utterance>", 18), (ascii "<|endoftext|>", 13),
   (ascii "<|begin_of_text|>", 17), (ascii "<|end_of_text|>", 15), (ascii "<|eot_id|>", 10),
   (ascii "<|start_header_id|>", 19), (ascii "<|end_header_id|>", 17), (ascii "<|finetune_right_pad_id|>", 25)]

/-- One round over the list of the model: a longer match replaces the best one. -/
def longerSpecial (s : List UInt8) (best : Option (Nat × Nat)) (p : List UInt8 × Nat) : Option (Nat × Nat) :=
  if 0 < p.1.length ∧ p.1.length ≤ s.length ∧ s.take p.1.length = p.1 ∧ best.elim 0 Prod.fst < p.1.length then
    some (p.1.length, p.2)
  else best

/-- One round over the fallback list, whose tokens are looked up. -/
def longerFallback (s : List UInt8) (best : Option (Nat × Nat)) (p : List UInt8 × Nat) : Option (Nat × Nat) :=
  if p.2 ≤ s.length ∧ s.take p.2 = p.1.take p.2 then
    match t.lookup p.1 with
    | some id => if best.elim 0 Prod.fst < p.2 then some (p.2, id) else best
    | none => best
  else best

/-- `match_special_token` at the start of what is left of the text: the length and the token of the
longest match. -/
def matchSpecialToken (s : List UInt8) : Option (Nat × Nat) :=
  if t.specialTokens ≠ [] then t.specialTokens.foldl (longerSpecial s) none
  else fallbackSpecials.foldl (t.longerFallback s) none

/-- The injection check from one place on: every `<|` starts a special token. -/
def injectionCheck : Nat → List UInt8 → Bool
  | 0, _ => true
  | _, [] => true
  | fuel + 1, c :: s =>
    if c = 60 ∧ s.head? = some 124 then
      match t.matchSpecialToken (c :: s) with
      | none => false
      | some (len, _) => injectionCheck fuel ((c :: s).drop len)
    else injectionCheck fuel s

/-- The length of the plain text before the next special token. -/
def plainLength : List UInt8 → Nat
  | [] => 0
  | c :: s => if (t.matchSpecialToken (c :: s)).isSome then 0 else plainLength s + 1

/-- The encoding loop at what is left of the text. -/
def encodeLoop (maxTokens : Nat) : Nat → List UInt8 → List Nat → Option (List Nat)
  | _, [], tokens => some tokens
  | 0, _ :: _, _ => none
  | fuel + 1, c :: s, tokens =>
    match t.matchSpecialToken (c :: s) with
    | some (len, id) =>
      if maxTokens ≤ tokens.length then none else encodeLoop maxTokens fuel ((c :: s).drop len) (tokens ++ [id])
    | none =>
      let n := t.plainLength (c :: s)
      match t.encodeSegment ((c :: s).take n) (maxTokens - tokens.length) with
      | none => none
      | some segment => encodeLoop maxTokens fuel ((c :: s).drop n) (tokens ++ segment)

/-- `tokenizer_encode`; `none` is -1. -/
def encode (text : List UInt8) (maxTokens : Int) : Option (List Nat) :=
  if maxTokens ≤ 0 then none
  else if t.injectionCheck text.length text then t.encodeLoop maxTokens.toNat text.length text []
  else none

end BitForge.Tokenizer
