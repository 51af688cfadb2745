/-
`config_from_gguf` of `core/gguf_loader.c`: the integers of the configuration that the metadata of a GGUF file states,
with the vocabulary size of the embedding tensor as a fallback. The floats of the RoPE scaling are left out.
-/
import BitForge.Moe.Config

namespace BitForge.Gguf

open BitForge.Lib BitForge.Moe

/-- The integer fields of `Config`. -/
structure Config where
  dim : Int
  hiddenDim : Int
  nLayers : Int
  nHeads : Int
  nKvHeads : Int
  vocabSize : Int
  seqLen : Int
  actType : Int
  scaleMode : Int
  bosTokenId : Int
  eosTokenId : Int
  ropeOrigCtxLen : Int
deriving DecidableEq, Repr

/-- `snprintf(key, 128, "%s.suffix", hdr->arch)` -/
def archKey (hdr : GGUFHeader) (suffix : String) : List UInt8 := (untilNul hdr.arch ++ ascii ("." ++ suffix)).take 127

/-- `gguf_meta_u32` for a key of the architecture. -/
def archU32 (hdr : GGUFHeader) (suffix : String) (defaultVal : Nat) : Nat :=
  ((hdr.metas.filter fun e => untilNul e.key = archKey hdr suffix).findSome? metaU32).getD defaultVal

def archInt (hdr : GGUFHeader) (suffix : String) (defaultVal : Nat) : Int := toInt32 (archU32 hdr suffix defaultVal)

/-- `gguf_find_tensor` -/
def findTensor (hdr : GGUFHeader) (name : List UInt8) : Option GGUFTensor := hdr.tensors.find? fun t => untilNul t.name = name

/-- `vocab_size`, or the rows of the embedding where it is not positive. -/
def ggufVocabSize (hdr : GGUFHeader) : Int :=
  let vocabSize := archInt hdr "vocab_size" 0
  if vocabSize ≤ 0 then
    match findTensor hdr (ascii "token_embd.weight") with
    | some embd => if embd.nDims ≥ 2 then toInt32 (embd.dims.getD 1 0) else vocabSize
    | none => vocabSize
  else vocabSize

/-- The number of KV heads is that of the heads where the metadata has none. -/
def ggufKvHeads (hdr : GGUFHeader) : Int :=
  archInt hdr "attention.head_count_kv" (archU32 hdr "attention.head_count" 0)

def ggufSeqLen (hdr : GGUFHeader) : Int := archInt hdr "context_length" 4096

/-- `config_from_gguf`; `none` is `TN_ERR_INVALID_CONFIG`. -/
def configFromGguf (hdr : GGUFHeader) : Option Config :=
  let dim := archInt hdr "embedding_length" 0
  let nLayers := archInt hdr "block_count" 0
  let nHeads := archInt hdr "attention.head_count" 0
  let hiddenDim := archInt hdr "feed_forward_length" 0
  if dim ≤ 0 ∨ nLayers ≤ 0 ∨ nHeads ≤ 0 ∨ hiddenDim ≤ 0 then none
  else
    let nKvHeads := ggufKvHeads hdr
    let seqLen := ggufSeqLen hdr
    let vocabSize := ggufVocabSize hdr
    if vocabSize ≤ 0 then none
    else
      let origCtx := archInt hdr "rope.scaling.original_context_length" (seqLen % 2 ^ 32).toNat
      some {
        dim, hiddenDim, nLayers, nHeads, nKvHeads, vocabSize, seqLen
        actType := 0
        scaleMode := 1
        bosTokenId := toInt32 (ggufMetaU32 hdr "tokenizer.ggml.bos_token_id" (2 ^ 32 - 1))
        eosTokenId := toInt32 (ggufMetaU32 hdr "tokenizer.ggml.eos_token_id" (2 ^ 32 - 1))
        ropeOrigCtxLen := if origCtx > 0 then origCtx else seqLen }

/-- What is accepted has the fields that the loader checks, and the others as the metadata states them. -/
theorem configFromGguf_some {hdr : GGUFHeader} {cfg : Config} (h : configFromGguf hdr = some cfg) :
    (0 < cfg.dim ∧ 0 < cfg.nLayers ∧ 0 < cfg.nHeads ∧ 0 < cfg.hiddenDim ∧ 0 < cfg.vocabSize) ∧
      cfg.dim = archInt hdr "embedding_length" 0 ∧ cfg.nHeads = archInt hdr "attention.head_count" 0 ∧
        cfg.hiddenDim = archInt hdr "feed_forward_length" 0 ∧
          cfg.nKvHeads = ggufKvHeads hdr ∧ cfg.seqLen = ggufSeqLen hdr ∧ cfg.vocabSize = ggufVocabSize hdr := by
  unfold configFromGguf at h
  dsimp only at h
  split at h
  · cases h
  split at h
  · cases h
  · next hreq hvocab =>
    cases h
    dsimp only
    exact ⟨by omega, rfl, rfl, rfl, rfl, rfl, rfl⟩

/-- The metadata that the loader requires is there. -/
def Required (hdr : GGUFHeader) : Prop :=
  0 < archInt hdr "embedding_length" 0 ∧ 0 < archInt hdr "block_count" 0 ∧ 0 < archInt hdr "attention.head_count" 0 ∧
    0 < archInt hdr "feed_forward_length" 0 ∧ 0 < ggufVocabSize hdr

theorem configFromGguf_isSome_iff (hdr : GGUFHeader) : (∃ cfg, configFromGguf hdr = some cfg) ↔ Required hdr := by
  unfold configFromGguf Required
  dsimp only
  split
  · next h =>
    constructor
    · rintro ⟨cfg, ⟨⟩⟩
    · omega
  split
  · next h =>
    constructor
    · rintro ⟨cfg, ⟨⟩⟩
    · omega
  · next hreq hvocab => exact ⟨fun _ => by omega, fun _ => ⟨_, rfl⟩⟩

end BitForge.Gguf
