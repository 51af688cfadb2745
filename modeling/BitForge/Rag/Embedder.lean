/-
`embedder_generate` of `rag/embedder.c`: forward passes over the tokens of a text in a run state of their own, the mean
of the activations, scaled to length one. The run state is used for text after text, yet an embedding depends on its
text only.
-/
import BitForge.Transformer.DecodeText

namespace BitForge.Rag

open BitForge.Lib BitForge.Kv BitForge.Transformer

/-- `EMBEDDER_MAX_SEQ` -/
def embedderMaxSeq : Int := 512

/-- The arithmetic on floats, given by their bits, and the components of an activation. -/
structure PoolOps (X : Type) where
  component : X → Nat → UInt32
  add : UInt32 → UInt32 → UInt32
  mul : UInt32 → UInt32 → UInt32
  /-- `1.0f / (float)n_tokens` -/
  invCount : Nat → UInt32
  /-- `norm_sq > 1e-12f` -/
  aboveEps : UInt32 → Bool
  /-- `1.0f / sqrtf(norm_sq)` -/
  invSqrt : UInt32 → UInt32

section

variable {F X L C R : Type} (ops : PoolOps X) (dim : Nat)

/-- `accum[j] += es->x[j]` -/
def accumulate (accum : Nat → UInt32) (x : X) : Nat → UInt32 := fun j =>
  if j < dim then ops.add (accum j) (ops.component x j) else accum j

/-- `norm_sq` of the first components. -/
def normSq (out : Nat → UInt32) : Nat → UInt32
  | 0 => 0
  | j + 1 => ops.add (normSq out j) (ops.mul (out j) (out j))

/-- Mean pooling and normalisation of the sums over `n` tokens. -/
def poolAndNormalise (accum : Nat → UInt32) (n : Nat) : Nat → UInt32 :=
  let invN := ops.invCount n
  let out := fun j => ops.mul (accum j) invN
  let norm := normSq ops out dim
  if ops.aboveEps norm then
    let invNorm := ops.invSqrt norm
    fun j => ops.mul (out j) invNorm
  else out

variable (K : Kernels F X L C R) (cfg : Config)

/-- The loop over the tokens from the position `i` on. -/
def embedPasses : List Int → Nat → (Nat → UInt32) → RunState F X L C R → (Nat → UInt32) × RunState F X L C R
  | [], _, accum, es => (accum, es)
  | t :: ts, i, accum, es =>
    let es := transformerForward K cfg none t i es
    embedPasses ts (i + 1) (accumulate ops dim accum es.x) { es with currentPos := (i : Int) + 1 }

/-- `memset` of the key and the value cache. -/
def clearCaches [Zero F] (mem : Mem KvArray F) : Mem KvArray F := fun k a =>
  if (k = .keyCache ∨ k = .valueCache) ∧ 0 ≤ a ∧ a < cfg.nLayers * cfg.nKvHeads * embedderMaxSeq * configHeadDim cfg then 0
  else mem k a

/-- `embedder_generate`: the embedding, or none where it returns -1. -/
def embedderGenerate [Zero F] (tok : Transformer.Tokenizer) (text : List UInt8) (es : RunState F X L C R) :
    Option (Nat → UInt32) × RunState F X L C R :=
  match tok.encode text embedderMaxSeq with
  | none => (none, es)
  | some tokens =>
    if tokens.length = 0 then (none, es)
    else
      let es := { es with
        kv := ⟨clearCaches cfg es.kv.mem, swInit embedderMaxSeq tokens.length⟩
        currentPos := 0 }
      let (accum, es) := embedPasses ops dim K cfg tokens 0 (fun _ => 0) es
      (some (poolAndNormalise ops dim accum tokens.length), es)

/-! ## The embedding as a function of the text -/

/-- The outputs of the layers on the tokens of a text, summed up. -/
def sumOutputs (start : Nat → C × R) (tokens : List Int) : Nat → UInt32 :=
  (List.range tokens.length).foldl (fun accum i => accumulate ops dim accum
    (sequenceOutput K cfg none embedderMaxSeq start (textSequence K (tokens.map K.embedToken)) i)) fun _ => 0

def embedText (start : Nat → C × R) (tok : Transformer.Tokenizer) (text : List UInt8) : Option (Nat → UInt32) :=
  match tok.encode text embedderMaxSeq with
  | none => none
  | some tokens =>
    if tokens.length = 0 then none
    else some (poolAndNormalise ops dim (sumOutputs ops dim K cfg start tokens) tokens.length)

end

/-- What the embedder relies on: `tokenizer_encode` keeps to its limit, and its tokens are in the vocabulary of the model. -/
structure EncodesWithin (cfg : Config) (tok : Transformer.Tokenizer) (maxTokens : Int) : Prop where
  length : ∀ text tokens, tok.encode text maxTokens = some tokens → tokens.length ≤ maxTokens
  inVocab : ∀ text tokens, tok.encode text maxTokens = some tokens → ∀ t ∈ tokens, InVocab cfg t

section

variable {F X L C R : Type} (ops : PoolOps X) (dim : Nat) (K : Kernels F X L C R) {cfg : Config} {start : Nat → C × R}

/-- The loop sums up the outputs of the layers on the whole text, whose first tokens it has taken in. -/
theorem embedPasses_eq : ∀ (rest done : List Int) (accum : Nat → UInt32) {spl : Int} {es : RunState F X L C R},
    (done ++ rest).length ≤ embedderMaxSeq → (∀ t ∈ rest, InVocab cfg t) →
    Transformer.Decoded K cfg none embedderMaxSeq spl start (textSequence K ((done ++ rest).map K.embedToken))
      done.length 0 es →
    (embedPasses ops dim K cfg rest done.length accum es).1 =
        (List.range' done.length rest.length).foldl (fun accum i => accumulate ops dim accum
          (sequenceOutput K cfg none embedderMaxSeq start (textSequence K ((done ++ rest).map K.embedToken)) i)) accum
  | [], done, accum, _, es, _, _, _ => rfl
  | t :: ts, done, accum, spl, es, hroom, hin, h => by
    have htok : InVocab cfg t := hin t List.mem_cons_self
    have hlen : (done ++ t :: ts).length = done.length + (ts.length + 1) := List.length_append
    have hread : textSequence K ((done ++ t :: ts).map K.embedToken) done.length = K.embedToken t := by
      unfold textSequence
      rw [List.map_append, List.getD_eq_getElem?_getD, List.getElem?_append_right (by rw [List.length_map]), List.length_map,
        Nat.sub_self]
      rfl
    have hwin : WindowOk embedderMaxSeq spl done.length := windowOk (.inl (by omega))
    have hinput : passInput K t es = textSequence K ((done ++ t :: ts).map K.embedToken) done.length := by
      rw [hread]
      exact if_pos htok.1
    obtain ⟨hd, hx, -⟩ := transformerForward_decoded (fun _ _ hfam => by cases hfam; trivial) ffnFresh_dense hwin h (fun _ => htok.2) hinput
    have hsplit : done ++ t :: ts = (done ++ [t]) ++ ts := List.append_cons done t ts
    have hdone : (done ++ [t]).length = done.length + 1 := List.length_append
    have hnext : Transformer.Decoded K cfg none embedderMaxSeq spl start
        (textSequence K (((done ++ [t]) ++ ts).map K.embedToken)) (done ++ [t]).length 0
        { transformerForward K cfg none t done.length es with currentPos := (done.length : Int) + 1 } := by
      rw [← hsplit, hdone]
      exact ⟨hd.maxSeqLen, hd.sizes, hd.entries, hd.linear⟩
    have hrest := embedPasses_eq ts (done ++ [t])
      (accumulate ops dim accum (transformerForward K cfg none t done.length es).x) (by rw [← hsplit]; exact hroom)
      (fun u hu => hin u (List.mem_cons_of_mem _ hu)) hnext
    rw [← hsplit, hdone] at hrest
    unfold embedPasses
    dsimp only
    rw [List.length_cons, List.range'_succ, List.foldl_cons, ← hx]
    exact hrest

theorem embedPasses_maxSeqLen : ∀ (tokens : List Int) (i : Nat) (accum : Nat → UInt32) (es : RunState F X L C R),
    (embedPasses ops dim K cfg tokens i accum es).2.maxSeqLen = es.maxSeqLen
  | [], _, _, _ => rfl
  | t :: ts, i, accum, es => by
    unfold embedPasses
    dsimp only
    rw [embedPasses_maxSeqLen ts]
    exact transformerForward_maxSeqLen K cfg none t i es

variable [Zero F] {tok : Transformer.Tokenizer}

/-- Whatever the run state has been used for, the embedding is that of the text. -/
theorem embedderGenerate_fst (htok : EncodesWithin cfg tok embedderMaxSeq) (start : Nat → C × R) (text : List UInt8)
    {es : RunState F X L C R} (hes : es.maxSeqLen = embedderMaxSeq) :
    (embedderGenerate ops dim K cfg tok text es).1 = embedText ops dim K cfg start tok text := by
  unfold embedderGenerate embedText
  cases henc : tok.encode text embedderMaxSeq with
  | none => rfl
  | some tokens =>
    dsimp only
    by_cases hempty : tokens.length = 0
    · rw [if_pos hempty, if_pos hempty]
    · rw [if_neg hempty, if_neg hempty]
      dsimp only
      have hfresh : Transformer.Decoded K cfg none embedderMaxSeq tokens.length start
          (textSequence K ((([] : List Int) ++ tokens).map K.embedToken)) ([] : List Int).length 0
          { es with
            kv := ⟨clearCaches cfg es.kv.mem, swInit embedderMaxSeq tokens.length⟩
            currentPos := 0 } := by
        refine ⟨hes, SameSizes.refl _, ?_, ?_⟩
        · intro layer _ fam _ L hlt _
          simp at hlt
        · intro layer _ hnone
          cases hnone
      have hpasses := embedPasses_eq ops dim K tokens [] (fun _ => 0) (htok.length text tokens henc)
        (htok.inVocab text tokens henc) hfresh
      rw [List.length_nil, List.nil_append, ← List.range_eq_range'] at hpasses
      rw [hpasses]
      rfl

theorem embedderGenerate_maxSeqLen (cfg : Config) (tok : Transformer.Tokenizer) (text : List UInt8) (es : RunState F X L C R) :
    (embedderGenerate ops dim K cfg tok text es).2.maxSeqLen = es.maxSeqLen := by
  unfold embedderGenerate
  cases tok.encode text embedderMaxSeq with
  | none => rfl
  | some tokens =>
    dsimp only
    split_ifs
    · rfl
    · exact embedPasses_maxSeqLen ops dim K tokens 0 _ _

end

/-- The embeddings of one text after another in one run state. -/
def embedAll {F X L C R : Type} [Zero F] (ops : PoolOps X) (dim : Nat) (K : Kernels F X L C R) (cfg : Config)
    (tok : Transformer.Tokenizer) : List (List UInt8) → RunState F X L C R → List (Option (Nat → UInt32))
  | [], _ => []
  | text :: texts, es =>
    let (embedding, es) := embedderGenerate ops dim K cfg tok text es
    embedding :: embedAll ops dim K cfg tok texts es

/-- The embeddings of a run of texts are those of the texts alone, without caches. -/
theorem embedAll_eq {F X L C R : Type} [Zero F] (ops : PoolOps X) (dim : Nat) (K : Kernels F X L C R) (cfg : Config)
    (tok : Transformer.Tokenizer) (start : Nat → C × R) (htok : EncodesWithin cfg tok embedderMaxSeq) :
    ∀ (texts : List (List UInt8)) (es : RunState F X L C R), es.maxSeqLen = embedderMaxSeq →
    embedAll ops dim K cfg tok texts es = texts.map (embedText ops dim K cfg start tok)
  | [], _, _ => rfl
  | text :: texts, es, hes => by
    unfold embedAll
    dsimp only
    rw [embedderGenerate_fst ops dim K htok start text hes,
      embedAll_eq ops dim K cfg tok start htok texts _ ((embedderGenerate_maxSeqLen ops dim K cfg tok text es).trans hes),
      List.map_cons]

/-- Sums and products of bits in place of floats. -/
def bitOps : PoolOps Int :=
  { component := fun x j => UInt32.ofNat (x.toNat + j)
    add := fun a b => a + b
    mul := fun a b => a * b
    invCount := fun n => UInt32.ofNat n
    aboveEps := fun norm => norm > 9
    invSqrt := fun norm => norm + 1 }

theorem remainderTokenizer_encodes : EncodesWithin ⟨1, 2, 1, 1, 3, 8, -1, -1⟩ remainderTokenizer embedderMaxSeq := by
  constructor
  · intro text tokens henc
    unfold remainderTokenizer at henc
    dsimp only at henc
    split_ifs at henc with hroom
    obtain rfl := Option.some.inj henc
    rw [List.length_map]
    exact hroom
  · intro text tokens henc t ht
    unfold remainderTokenizer at henc
    dsimp only at henc
    split_ifs at henc
    obtain rfl := Option.some.inj henc
    obtain ⟨b, -, rfl⟩ := List.mem_map.1 ht
    have hlt : b.toNat % 3 < 3 := Nat.mod_lt _ (by decide)
    constructor
    · omega
    · dsimp only
      omega

theorem embedAll_eq_two :
    embedAll bitOps 2 sumKernels ⟨1, 2, 1, 1, 3, 8, -1, -1⟩ remainderTokenizer [[120, 122], [121]]
        { usedState with maxSeqLen := 512 } =
      [[120, 122], [121]].map (embedText bitOps 2 sumKernels ⟨1, 2, 1, 1, 3, 8, -1, -1⟩ (fun _ => (0, 0))
        remainderTokenizer) :=
  embedAll_eq bitOps 2 sumKernels ⟨1, 2, 1, 1, 3, 8, -1, -1⟩ remainderTokenizer (fun _ => (0, 0)) remainderTokenizer_encodes
    [[120, 122], [121]] { usedState with maxSeqLen := 512 } rfl

end BitForge.Rag
