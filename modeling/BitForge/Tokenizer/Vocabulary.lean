/-
The tokenizer and its two loaders (tokenizer_load.c, tokenizer_gguf.c): the strings of the
vocabulary, their merge scores, the sorted index and the special tokens. Allocation succeeds.
-/
import Mathlib.Data.List.TakeWhile
import BitForge.Lib.Bytes
import BitForge.Lib.Single
import BitForge.Tokenizer.VocabIndex

namespace BitForge

open Lib Tokenizer

/-- A loaded tokenizer. Scores are the bits of floats. A negative `vocab_size` and 0 are one: no loop
over the vocabulary runs. -/
structure Tokenizer where
  vocab : List (List UInt8)
  vocabScores : List Nat
  vocabSize : Nat
  maxTokenLen : Int
  sortedVocabIndices : VocabIndex vocab vocabSize
  bosTokenId : Int
  specialTokens : List (List UInt8 × Nat)
  noNul : ∀ s ∈ vocab, 0 ∉ s
  size_le : vocabSize ≤ vocab.length
  special : ∀ p ∈ specialTokens, p.1 ≠ [] ∧ p.2 < vocabSize ∧ vocab.getD p.2 [] = p.1

namespace Tokenizer

section Fields

variable (t : Tokenizer)

/-- `t->vocab[id]`. -/
def str (id : Nat) : List UInt8 := t.vocab.getD id []

def score (id : Nat) : Nat := t.vocabScores.getD id 0

def lookup (s : List UInt8) : Option Nat := t.sortedVocabIndices.lookup s

theorem lookup_some {s : List UInt8} {id : Nat} (h : t.lookup s = some id) : id < t.vocabSize ∧ t.str id = s :=
  t.sortedVocabIndices.lookup_some h

theorem lookup_none {s : List UInt8} (h : t.lookup s = none) {id : Nat} (hid : id < t.vocabSize) : t.str id ≠ s :=
  t.sortedVocabIndices.lookup_none h hid

end Fields

/-! ## Merge scores -/

/-- `strchr(merge_str, ' ')` and the two parts around it. -/
def splitMerge (merge : List UInt8) : Option (List UInt8 × List UInt8) :=
  (afterChar 32 merge).map fun b => (merge.takeWhile (· ≠ 32), b)

def findVocabToken (vocab : List (List UInt8)) (s : List UInt8) : Option Nat := vocab.findIdx? fun v => strcmp v s = 0

/-- One round of the loop over the merges: the score of the merged token is set while it is zero. -/
def scoreMerge (vocab : List (List UInt8)) (scores : List Nat) (rank : Nat) (merge : List UInt8) : List Nat :=
  match splitMerge (untilNul merge) with
  | none => scores
  | some (a, b) =>
    match findVocabToken vocab (a ++ b) with
    | none => scores
    | some id =>
      if Single.eq (scores.getD id 0) 0 then scores.set id (Single.neg (Single.ofNat rank)) else scores

def mergeScores (vocab : List (List UInt8)) : Nat → List Nat → List (List UInt8) → List Nat
  | _, scores, [] => scores
  | rank, scores, merge :: merges => mergeScores vocab (rank + 1) (scoreMerge vocab scores rank merge) merges

/-! ## The GGUF loader -/

/-- A metadata array: what `gguf_meta_array_data` points to, `gguf_meta_array_count` counts and its type says. -/
inductive MetaArray
  | strings (elems : List (List UInt8))
  | float32 (elems : List Nat)
  | int32 (elems : List Nat)
  | uint32 (elems : List Nat)
  | other (count : Nat)
deriving DecidableEq, Repr

/-- The metadata that the loader asks for. -/
structure GGUFTokenizerMeta where
  model : Option (List UInt8)
  tokens : Option MetaArray
  scores : Option MetaArray
  merges : Option MetaArray
  bosTokenId : Option Nat
  tokenType : Option MetaArray
deriving DecidableEq, Repr

def zeroScores (n : Nat) : List Nat := List.replicate n 0

/-- The float of each token, where the array has one for each; zeros otherwise. -/
def spmScores (n : Nat) : Option MetaArray → List Nat
  | some (.float32 elems) => if elems.length = n then elems else zeroScores n
  | _ => zeroScores n

def bpeScores (vocab : List (List UInt8)) (vocabSize : Nat) : Option MetaArray → List Nat
  | some (.strings merges) => mergeScores (vocab.take vocabSize) 0 (zeroScores vocab.length) merges
  | _ => zeroScores vocab.length

/-- The types of the tokens, read as `int32_t`. -/
def tokenTypes : Option MetaArray → List Nat
  | some (.int32 elems) => elems
  | some (.uint32 elems) => elems
  | _ => []

/-- The control and user defined tokens (types 3 and 4) that are not empty. -/
def specialsOf (vocab : List (List UInt8)) (vocabSize : Nat) (types : List Nat) : List (List UInt8 × Nat) :=
  (List.range vocabSize).filterMap fun i =>
    match types[i]? with
    | some ty => if (ty = 3 ∨ ty = 4) ∧ vocab.getD i [] ≠ [] then some (vocab.getD i [], i) else none
    | none => none

theorem specialsOf_spec {vocab : List (List UInt8)} {vocabSize : Nat} {types : List Nat} {p : List UInt8 × Nat}
    (h : p ∈ specialsOf vocab vocabSize types) : p.1 ≠ [] ∧ p.2 < vocabSize ∧ vocab.getD p.2 [] = p.1 := by
  obtain ⟨i, hi, hp⟩ := List.mem_filterMap.1 h
  split at hp
  · split at hp
    · next hcond =>
      cases hp
      exact ⟨hcond.2, List.mem_range.1 hi, rfl⟩
    · cases hp
  · cases hp

/-- The longest string, each length cast to `int`. -/
def maxLen (vocab : List (List UInt8)) : Int :=
  vocab.foldl (fun m s => if m < toInt32 s.length then toInt32 s.length else m) 0

theorem toInt32_toNat_le (n : Nat) : (toInt32 n).toNat ≤ n := by
  unfold toInt32
  have := Nat.mod_le n (2 ^ 32)
  split <;> omega

/-- `tokenizer_load_from_gguf`; `none` is an error code. -/
def tokenizerLoadFromGguf (hdr : GGUFTokenizerMeta) : Option Tokenizer :=
  match hdr.tokens with
  | some (.strings elems) =>
    if elems = [] then none
    else
      let vocab := elems.map untilNul
      let vocabSize := (toInt32 vocab.length).toNat
      some {
        vocab, vocabSize
        vocabScores :=
          if hdr.model.map untilNul = some (ascii "gpt2") then bpeScores vocab vocabSize hdr.merges
          else spmScores vocab.length hdr.scores
        maxTokenLen := maxLen vocab
        sortedVocabIndices := .build vocab vocabSize
        bosTokenId := toInt32 (hdr.bosTokenId.getD (2 ^ 32 - 1))
        specialTokens := specialsOf vocab vocabSize (tokenTypes hdr.tokenType)
        noNul := List.forall_mem_map.2 fun s _ => untilNul_noNul s
        size_le := toInt32_toNat_le _
        special := fun _ hp => specialsOf_spec hp }
  | _ => none

/-! ## The loader of native files -/

/-- A score, a length and a string. -/
def readToken (maxTokenLen : Int) (bytes : List UInt8) : Option ((Nat × List UInt8) × List UInt8) :=
  if bytes.length < 8 then none
  else
    let len := toInt32 (rd32 bytes 4)
    if len < 0 ∨ maxTokenLen < len then none
    else
      let rest := bytes.drop 8
      if rest.length < len.toNat then none
      else some ((rd32 bytes 0, untilNul (rest.take len.toNat)), rest.drop len.toNat)

def readTokens (maxTokenLen : Int) : Nat → List UInt8 → Option (List (Nat × List UInt8))
  | 0, _ => some []
  | n + 1, bytes => do
    let (token, rest) ← readToken maxTokenLen bytes
    let tokens ← readTokens maxTokenLen n rest
    return token :: tokens

def bosCandidates : List (List UInt8) := [ascii "<|begin_of_text|>", ascii "<s>", ascii "<bos>"]

theorem readToken_noNul {maxTokenLen : Int} {bytes rest : List UInt8} {token : Nat × List UInt8}
    (h : readToken maxTokenLen bytes = some (token, rest)) : 0 ∉ token.2 := by
  unfold readToken at h
  dsimp only at h
  split at h
  · cases h
  split at h
  · cases h
  split at h
  · cases h
  · cases h
    exact untilNul_noNul _

theorem readTokens_noNul {maxTokenLen : Int} : ∀ {n : Nat} {bytes : List UInt8} {tokens : List (Nat × List UInt8)},
    readTokens maxTokenLen n bytes = some tokens → tokens.length = n ∧ ∀ p ∈ tokens, 0 ∉ p.2
  | 0, _, _, h => by
    cases h
    exact ⟨rfl, nofun⟩
  | n + 1, bytes, tokens, h => by
    rw [readTokens, Option.bind_eq_bind, Option.bind_eq_some_iff] at h
    obtain ⟨⟨token, rest⟩, htoken, h⟩ := h
    obtain ⟨tokens', htokens, h⟩ := Option.bind_eq_some_iff.1 h
    cases h
    obtain ⟨hlen, hall⟩ := readTokens_noNul htokens
    refine ⟨by rw [List.length_cons, hlen], fun p hp => ?_⟩
    rcases List.mem_cons.1 hp with rfl | hp
    · exact readToken_noNul htoken
    · exact hall p hp

/-- `tokenizer_load` of the bytes of a file; `none` is an error code. -/
def tokenizerLoad (file : List UInt8) : Option Tokenizer :=
  if file.length < 8 then none
  else
    let vocabSize := toInt32 (rd32 file 0)
    let maxTokenLen := toInt32 (rd32 file 4)
    if vocabSize ≤ 0 ∨ 1000000 < vocabSize then none
    else if maxTokenLen ≤ 0 ∨ 4096 < maxTokenLen then none
    else
      match h : readTokens maxTokenLen vocabSize.toNat (file.drop 8) with
      | none => none
      | some tokens =>
        let vocab := tokens.map Prod.snd
        let index := VocabIndex.build vocab vocabSize.toNat
        some {
          vocab, maxTokenLen
          vocabSize := vocabSize.toNat
          vocabScores := tokens.map Prod.fst
          sortedVocabIndices := index
          bosTokenId := (bosCandidates.findSome? index.findId).elim (-1) Int.ofNat
          specialTokens := []
          noNul := List.forall_mem_map.2 fun p hp => (readTokens_noNul h).2 p hp
          size_le := by rw [List.length_map, (readTokens_noNul h).1]
          special := nofun }

end Tokenizer

end BitForge
