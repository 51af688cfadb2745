/-
The stack arrays for quantized inputs in the dense forward pass of a GGUF model: the types that the loader gives the
projections of a layer, and what `attention_forward`, `ffn_forward` and `tn_dense_matmul_dispatch` then quantize.
-/
import BitForge.Gguf.Config

namespace BitForge.ActBuffers

open BitForge.Lib BitForge.Gguf

/-! ## The loader -/

/-- `WEIGHT_TYPE_*` -/
inductive WeightType
  | f32
  | f16
  | q4k
  | q2_0
  | q4kX8
deriving DecidableEq, Repr

/-- The types that `tensor_to_f32` dequantizes. -/
def tensorToF32 : GGUFType → Bool
  | .f32 | .f16 | .bf16 | .q8_0 | .q4_K | .q4_0 | .q5_0 | .q5_1 | .q5_K | .q6_K | .q2_K | .q3_K | .iq4_NL | .q2_0 => true
  | _ => false

/-- `snprintf(name_buf, .., "blk.%d." tname, l)` -/
def blkName (l : Nat) (tname : String) : List UInt8 := ascii ("blk." ++ toString l ++ "." ++ tname)

/-- `norm_to_f32`; false is `NULL`. A tensor of type F32 is used where it lies. -/
def normToF32 (hdr : GGUFHeader) (name : List UInt8) : Bool :=
  match findTensor hdr name with
  | some t => if t.type = .f32 then t.data.isSome else tensorToF32 t.type
  | none => false

/-- `LOAD_PROJ`; `none` is `TN_ERR_INVALID_WEIGHTS`. -/
def loadProj (hdr : GGUFHeader) (l : Nat) (tname : String) (dRows nInner : Int) : Option WeightType :=
  match findTensor hdr (blkName l tname) with
  | none => none
  | some t =>
    let nElems := toSizeT dRows * toSizeT nInner % 2 ^ 64
    if t.type = .f16 then some .f16
    else if t.type = .f32 then some .f32
    else if t.type = .q4_K ∧ nElems % 256 = 0 ∧ toSizeT nInner % 256 = 0 ∧ toSizeT dRows % 8 = 0 then some .q4kX8
    else if t.type = .q4_K ∧ nElems % 256 = 0 then some .q4k
    else if tensorToF32 t.type then some .f32
    else none

/-- The types of the projections of a layer. -/
structure LayerTypes where
  wq : WeightType
  wk : WeightType
  wv : WeightType
  wo : WeightType
  w1 : WeightType
  w2 : WeightType
  w3 : WeightType
deriving DecidableEq, Repr

/-- `config_kv_dim`, in `int`. -/
def kvDim (cfg : Config) : Int := Moe.mulInt (cfg.dim.tdiv cfg.nHeads) cfg.nKvHeads

/-- The optional norms of the heads: the one of the keys is needed where there is one of the queries. -/
def qkNorms (hdr : GGUFHeader) (l : Nat) : Bool :=
  (findTensor hdr (blkName l "attn_q_norm.weight")).isNone ||
    (normToF32 hdr (blkName l "attn_q_norm.weight") && normToF32 hdr (blkName l "attn_k_norm.weight"))

/-- One layer of `weights_from_gguf`. -/
def loadLayer (hdr : GGUFHeader) (cfg : Config) (l : Nat) : Option LayerTypes :=
  if !normToF32 hdr (blkName l "attn_norm.weight") then none
  else if !normToF32 hdr (blkName l "ffn_norm.weight") then none
  else if !qkNorms hdr l then none
  else do
    let wq ← loadProj hdr l "attn_q.weight" cfg.dim cfg.dim
    let wk ← loadProj hdr l "attn_k.weight" (kvDim cfg) cfg.dim
    let wv ← loadProj hdr l "attn_v.weight" (kvDim cfg) cfg.dim
    let wo ← loadProj hdr l "attn_output.weight" cfg.dim cfg.dim
    let w1 ← loadProj hdr l "ffn_gate.weight" cfg.hiddenDim cfg.dim
    let w2 ← loadProj hdr l "ffn_down.weight" cfg.dim cfg.hiddenDim
    let w3 ← loadProj hdr l "ffn_up.weight" cfg.hiddenDim cfg.dim
    return ⟨wq, wk, wv, wo, w1, w2, w3⟩

/-- The embedding types that the dense loader takes. -/
def embeddingLoads (hdr : GGUFHeader) : Bool :=
  match findTensor hdr (ascii "token_embd.weight") with
  | some t => t.type ∈ [.bf16, .f32, .f16, .q4_K, .q8_0, .q4_0, .q5_0, .q5_1, .q5_K, .q6_K]
  | none => false

/-- `weights_from_gguf` for the architectures without a loader of their own; allocation succeeds. -/
def weightsFromGguf (hdr : GGUFHeader) (cfg : Config) : Option (List LayerTypes) :=
  if sameText hdr.arch "deepseek2" || sameText hdr.arch "qwen35" || sameText hdr.arch "qwen3moe" then none
  else if !embeddingLoads hdr then none
  else do
    let layers ← (List.range cfg.nLayers.toNat).mapM (loadLayer hdr cfg)
    if !normToF32 hdr (ascii "output_norm.weight") then none
    return layers

/-! ## The forward pass -/

/-- A stack array and what is written into it. -/
structure StackFill where
  written : Int
  capacity : Int
deriving DecidableEq, Repr

def StackFill.Fits (f : StackFill) : Prop := f.written ≤ f.capacity

instance (f : StackFill) : Decidable f.Fits := by
  unfold StackFill.Fits; infer_instance

/-- `TN_DENSE_DISPATCH_MAX_Q8K_BLOCKS` -/
def maxQ8kBlocks : Int := 64

/-- `ATTN_PREQ_BUF_SIZE` and `FFN_PREQ_BUF_SIZE` -/
def preqBufSize : Int := 16384

/-- `tn_dense_matmul_dispatch` of an input of `n` elements: only the repacked Q4_K kernel has its input quantized on the
stack, plain Q4_K takes a buffer of the heap that grows. -/
def denseMatmulDispatch (wtype : WeightType) (n : Int) : List StackFill :=
  match wtype with
  | .q4kX8 => [⟨n.tdiv 256, maxQ8kBlocks⟩]
  | .f16 | .q4k | .q2_0 | .f32 => []

/-- `tn_is_q4k_family` -/
def isQ4kFamily (wtype : WeightType) : Bool := wtype = .q4k || wtype = .q4kX8

/-- `tn_preq_prepare`, and the array of `parallel_ternary_matmul_packed`: longer inputs are not quantized. -/
def preqPrepare (n : Int) : StackFill := ⟨if n ≤ 0 ∨ n > 16384 then 0 else n, preqBufSize⟩

/-- A loaded model. -/
structure Model where
  cfg : Config
  layersAreTernary : Bool
  layers : List LayerTypes

/-- What `attention_forward` quantizes on the stack. -/
def attentionForward (m : Model) (t : LayerTypes) : List StackFill :=
  (if m.layersAreTernary then [preqPrepare m.cfg.dim]
    else if isQ4kFamily t.wq && isQ4kFamily t.wk && isQ4kFamily t.wv then [⟨m.cfg.dim.tdiv 256, preqBufSize.tdiv 256⟩]
    else denseMatmulDispatch t.wq m.cfg.dim ++ denseMatmulDispatch t.wk m.cfg.dim ++ denseMatmulDispatch t.wv m.cfg.dim) ++
  if m.layersAreTernary then [preqPrepare m.cfg.dim] else denseMatmulDispatch t.wo m.cfg.dim

/-- What `ffn_forward` quantizes on the stack on a layer without experts. -/
def ffnForward (m : Model) (t : LayerTypes) : List StackFill :=
  (if m.layersAreTernary then [preqPrepare m.cfg.dim]
    else if isQ4kFamily t.w1 && isQ4kFamily t.w3 then [⟨m.cfg.dim.tdiv 256, preqBufSize.tdiv 256⟩]
    else denseMatmulDispatch t.w1 m.cfg.dim ++ denseMatmulDispatch t.w3 m.cfg.dim) ++
  if m.layersAreTernary then [preqPrepare m.cfg.hiddenDim] else denseMatmulDispatch t.w2 m.cfg.hiddenDim

/-- `m` is what the dense loader makes of a GGUF file with the header `hdr`. -/
def Loads (hdr : GGUFHeader) (m : Model) : Prop :=
  configFromGguf hdr = some m.cfg ∧ weightsFromGguf hdr m.cfg = some m.layers ∧ m.layersAreTernary = false

/-- No forward pass writes behind the end of a stack array. -/
def Model.BuffersFit (m : Model) : Prop := ∀ t ∈ m.layers, ∀ f ∈ attentionForward m t ++ ffnForward m t, f.Fits

/-! ## One layer -/

theorem preqPrepare_fits (n : Int) : (preqPrepare n).Fits := by
  unfold preqPrepare StackFill.Fits preqBufSize
  dsimp only
  split <;> omega

/-- Ternary inputs that are too long for the array are not quantized at all. -/
theorem ternary_buffersFit {m : Model} (h : m.layersAreTernary = true) : m.BuffersFit := by
  intro t _ f hf
  simp only [attentionForward, ffnForward, h, if_true, List.mem_append, List.mem_singleton] at hf
  rcases hf with (rfl | rfl) | rfl | rfl
  all_goals exact preqPrepare_fits _

/-- The array has room for 64 blocks. -/
theorem blocks_fit_iff (n : Int) : (⟨n.tdiv 256, maxQ8kBlocks⟩ : StackFill).Fits ↔ n < 65 * 256 := by
  unfold StackFill.Fits maxQ8kBlocks
  dsimp only
  rcases le_or_gt 0 n with hn | hn
  · rw [Int.tdiv_eq_ediv_of_nonneg hn]
    omega
  · have hneg : 0 ≤ (-n).tdiv 256 := Int.tdiv_nonneg (by omega) (by decide)
    rw [Int.neg_tdiv] at hneg
    exact iff_of_true (by omega) (by omega)

theorem dispatch_fits_iff (w : WeightType) (n : Int) :
    (∀ f ∈ denseMatmulDispatch w n, f.Fits) ↔ (w = .q4kX8 → n < 65 * 256) := by
  cases w with
  | q4kX8 =>
    simp only [denseMatmulDispatch, List.mem_singleton, forall_eq, forall_const]
    exact blocks_fit_iff n
  | f32 => simp [denseMatmulDispatch]
  | f16 => simp [denseMatmulDispatch]
  | q4k => simp [denseMatmulDispatch]
  | q2_0 => simp [denseMatmulDispatch]

/-- Projections of one input, which is quantized once for all of them where all are of the Q4_K family. -/
def Quantizes (ws : List WeightType) : Prop := (∃ w ∈ ws, w = .q4kX8) ∨ ∀ w ∈ ws, isQ4kFamily w = true

theorem shared_fits_iff (ws : List WeightType) (n : Int) :
    (∀ f ∈ if ws.all isQ4kFamily then [(⟨n.tdiv 256, maxQ8kBlocks⟩ : StackFill)] else ws.flatMap fun w => denseMatmulDispatch w n,
      f.Fits) ↔ (Quantizes ws → n < 65 * 256) := by
  unfold Quantizes
  split
  · next hall =>
    rw [List.all_eq_true] at hall
    simp only [List.forall_mem_singleton, blocks_fit_iff]
    exact ⟨fun h _ => h, fun h => h (Or.inr hall)⟩
  · next hall =>
    rw [List.all_eq_true] at hall
    simp only [List.mem_flatMap, forall_exists_index, and_imp]
    constructor
    · rintro h (⟨w, hw, rfl⟩ | hq)
      · exact (dispatch_fits_iff _ n).1 (fun f hf => h f _ hw hf) rfl
      · exact absurd hq hall
    · intro h f w hw hf
      exact (dispatch_fits_iff w n).2 (fun hx => h (Or.inl ⟨w, hw, hx⟩)) f hf

/-- The inputs that the layer quantizes on the stack have less than 65 blocks. -/
def LayerTypes.Fits (t : LayerTypes) (cfg : Config) : Prop :=
  (Quantizes [t.wq, t.wk, t.wv] ∨ t.wo = .q4kX8 ∨ Quantizes [t.w1, t.w3] → cfg.dim < 65 * 256) ∧
    (t.w2 = .q4kX8 → cfg.hiddenDim < 65 * 256)

theorem attention_fits_iff {m : Model} (h : m.layersAreTernary = false) (t : LayerTypes) :
    (∀ f ∈ attentionForward m t, f.Fits) ↔ (Quantizes [t.wq, t.wk, t.wv] ∨ t.wo = .q4kX8 → m.cfg.dim < 65 * 256) := by
  have hshared := shared_fits_iff [t.wq, t.wk, t.wv] m.cfg.dim
  simp only [List.all_cons, List.all_nil, Bool.and_true, List.flatMap_cons, List.flatMap_nil, List.append_nil,
    ← Bool.and_assoc, ← List.append_assoc] at hshared
  unfold attentionForward
  rw [h, or_imp, ← dispatch_fits_iff, ← hshared, ← List.forall_mem_append]
  rfl

theorem ffn_fits_iff {m : Model} (h : m.layersAreTernary = false) (t : LayerTypes) :
    (∀ f ∈ ffnForward m t, f.Fits) ↔
      (Quantizes [t.w1, t.w3] → m.cfg.dim < 65 * 256) ∧ (t.w2 = .q4kX8 → m.cfg.hiddenDim < 65 * 256) := by
  have hshared := shared_fits_iff [t.w1, t.w3] m.cfg.dim
  simp only [List.all_cons, List.all_nil, Bool.and_true, List.flatMap_cons, List.flatMap_nil, List.append_nil] at hshared
  unfold ffnForward
  rw [h, ← dispatch_fits_iff, ← hshared, ← List.forall_mem_append]
  rfl

theorem layer_fits_iff {m : Model} (h : m.layersAreTernary = false) (t : LayerTypes) :
    (∀ f ∈ attentionForward m t ++ ffnForward m t, f.Fits) ↔ t.Fits m.cfg := by
  rw [List.forall_mem_append, attention_fits_iff h, ffn_fits_iff h]
  unfold LayerTypes.Fits
  tauto

/-! ## What the file states -/

/-- Whole blocks of a tensor of type Q4_K. -/
def Q4kProj (hdr : GGUFHeader) (l : Nat) (tname : String) (dRows nInner : Int) : Prop :=
  (findTensor hdr (blkName l tname)).map GGUFTensor.type = some .q4_K ∧ toSizeT dRows * toSizeT nInner % 2 ^ 64 % 256 = 0

instance (hdr : GGUFHeader) (l : Nat) (tname : String) (dRows nInner : Int) : Decidable (Q4kProj hdr l tname dRows nInner) := by
  unfold Q4kProj; infer_instance

/-- Such a tensor with whole blocks in each row and rows in groups of eight. -/
def Repacked (hdr : GGUFHeader) (l : Nat) (tname : String) (dRows nInner : Int) : Prop :=
  Q4kProj hdr l tname dRows nInner ∧ toSizeT nInner % 256 = 0 ∧ toSizeT dRows % 8 = 0

instance (hdr : GGUFHeader) (l : Nat) (tname : String) (dRows nInner : Int) : Decidable (Repacked hdr l tname dRows nInner) := by
  unfold Repacked; infer_instance

/-- A projection among those of one input is repacked, or all of them are of type Q4_K; each comes with its rows. -/
def StatesQuantized (hdr : GGUFHeader) (l : Nat) (projs : List (String × Int)) (nInner : Int) : Prop :=
  (∃ p ∈ projs, Repacked hdr l p.1 p.2 nInner) ∨ ∀ p ∈ projs, Q4kProj hdr l p.1 p.2 nInner

instance (hdr : GGUFHeader) (l : Nat) (projs : List (String × Int)) (nInner : Int) :
    Decidable (StatesQuantized hdr l projs nInner) := by
  unfold StatesQuantized; infer_instance

/-- In every layer the input of a projection that has it quantized on the stack has less than 65 blocks. -/
def HeaderFits (hdr : GGUFHeader) (cfg : Config) : Prop :=
  ∀ l < cfg.nLayers.toNat,
    (StatesQuantized hdr l [("attn_q.weight", cfg.dim), ("attn_k.weight", kvDim cfg), ("attn_v.weight", kvDim cfg)] cfg.dim ∨
        Repacked hdr l "attn_output.weight" cfg.dim cfg.dim ∨
          StatesQuantized hdr l [("ffn_gate.weight", cfg.hiddenDim), ("ffn_up.weight", cfg.hiddenDim)] cfg.dim →
      cfg.dim < 65 * 256) ∧
    (Repacked hdr l "ffn_down.weight" cfg.dim cfg.hiddenDim → cfg.hiddenDim < 65 * 256)

instance (hdr : GGUFHeader) (cfg : Config) : Decidable (HeaderFits hdr cfg) := by
  unfold HeaderFits; infer_instance

/-- The loader takes the type of a projection from its tensor and its two dimensions. -/
theorem loadProj_types {hdr : GGUFHeader} {l : Nat} {tname : String} {dRows nInner : Int} {w : WeightType}
    (h : loadProj hdr l tname dRows nInner = some w) :
    (isQ4kFamily w = true ↔ Q4kProj hdr l tname dRows nInner) ∧ (w = .q4kX8 ↔ Repacked hdr l tname dRows nInner) := by
  unfold loadProj at h
  unfold Repacked Q4kProj
  cases htensor : findTensor hdr (blkName l tname) with
  | none => rw [htensor] at h; cases h
  | some t =>
    rw [htensor] at h
    dsimp only at h
    simp only [Option.map_some, Option.some.injEq]
    generalize toSizeT dRows * toSizeT nInner % 2 ^ 64 = nElems at h ⊢
    split at h
    · next hf16 => cases h; simp [isQ4kFamily, hf16]
    split at h
    · next hf32 => cases h; simp [isQ4kFamily, hf32]
    split at h
    · next hx8 => cases h; simp [isQ4kFamily, hx8]
    split at h
    · next hnot hq4k =>
      cases h
      simp only [isQ4kFamily, hq4k, true_and, and_true] at hnot ⊢
      simp [hnot]
    · next hnot =>
      split at h
      · cases h
        simp [isQ4kFamily, hnot]
      · cases h

theorem loadLayer_some {hdr : GGUFHeader} {cfg : Config} {l : Nat} {t : LayerTypes} (h : loadLayer hdr cfg l = some t) :
    (loadProj hdr l "attn_q.weight" cfg.dim cfg.dim = some t.wq ∧
        loadProj hdr l "attn_k.weight" (kvDim cfg) cfg.dim = some t.wk ∧
        loadProj hdr l "attn_v.weight" (kvDim cfg) cfg.dim = some t.wv ∧
        loadProj hdr l "attn_output.weight" cfg.dim cfg.dim = some t.wo) ∧
      loadProj hdr l "ffn_gate.weight" cfg.hiddenDim cfg.dim = some t.w1 ∧
      loadProj hdr l "ffn_down.weight" cfg.dim cfg.hiddenDim = some t.w2 ∧
      loadProj hdr l "ffn_up.weight" cfg.hiddenDim cfg.dim = some t.w3 := by
  unfold loadLayer at h
  split at h
  · cases h
  split at h
  · cases h
  split at h
  · cases h
  simp only [Option.bind_eq_bind, Option.bind_eq_some_iff] at h
  obtain ⟨wq, hq, wk, hk, wv, hv, wo, ho, w1, h1, w2, h2, w3, h3, ht⟩ := h
  cases ht
  exact ⟨⟨hq, hk, hv, ho⟩, h1, h2, h3⟩

/-- A layer of the model fits exactly if the file says so of it. -/
theorem loadLayer_fits_iff {hdr : GGUFHeader} {cfg : Config} {l : Nat} {t : LayerTypes} (h : loadLayer hdr cfg l = some t) :
    t.Fits cfg ↔
      (StatesQuantized hdr l [("attn_q.weight", cfg.dim), ("attn_k.weight", kvDim cfg), ("attn_v.weight", kvDim cfg)] cfg.dim ∨
          Repacked hdr l "attn_output.weight" cfg.dim cfg.dim ∨
            StatesQuantized hdr l [("ffn_gate.weight", cfg.hiddenDim), ("ffn_up.weight", cfg.hiddenDim)] cfg.dim →
        cfg.dim < 65 * 256) ∧
      (Repacked hdr l "ffn_down.weight" cfg.dim cfg.hiddenDim → cfg.hiddenDim < 65 * 256) := by
  obtain ⟨⟨hq, hk, hv, ho⟩, h1, h2, h3⟩ := loadLayer_some h
  have hattn : Quantizes [t.wq, t.wk, t.wv] ↔
      StatesQuantized hdr l [("attn_q.weight", cfg.dim), ("attn_k.weight", kvDim cfg), ("attn_v.weight", kvDim cfg)] cfg.dim := by
    unfold Quantizes StatesQuantized
    simp only [List.mem_cons, List.not_mem_nil, or_false, exists_eq_or_imp, exists_eq_left, forall_eq_or_imp, forall_eq,
      loadProj_types hq, loadProj_types hk, loadProj_types hv]
  have hffn : Quantizes [t.w1, t.w3] ↔
      StatesQuantized hdr l [("ffn_gate.weight", cfg.hiddenDim), ("ffn_up.weight", cfg.hiddenDim)] cfg.dim := by
    unfold Quantizes StatesQuantized
    simp only [List.mem_cons, List.not_mem_nil, or_false, exists_eq_or_imp, exists_eq_left, forall_eq_or_imp, forall_eq,
      loadProj_types h1, loadProj_types h3]
  unfold LayerTypes.Fits
  rw [hattn, hffn, (loadProj_types ho).2, (loadProj_types h2).2]

/-! ## All layers -/

theorem mem_of_mapM {α β : Type} {f : α → Option β} : ∀ {xs : List α} {ys : List β}, xs.mapM f = some ys →
    (∀ y ∈ ys, ∃ x ∈ xs, f x = some y) ∧ ∀ x ∈ xs, ∃ y ∈ ys, f x = some y
  | [], ys, h => by
    cases h
    simp
  | x :: xs, ys, h => by
    simp only [List.mapM_cons, Option.bind_eq_bind, Option.bind_eq_some_iff] at h
    obtain ⟨y, hy, rest, hrest, heq⟩ := h
    cases heq
    obtain ⟨hin, hout⟩ := mem_of_mapM hrest
    constructor
    · intro z hz
      rcases List.mem_cons.1 hz with rfl | hz
      · exact ⟨x, List.mem_cons_self, hy⟩
      · obtain ⟨w, hw, hf⟩ := hin z hz
        exact ⟨w, List.mem_cons_of_mem _ hw, hf⟩
    · intro z hz
      rcases List.mem_cons.1 hz with rfl | hz
      · exact ⟨y, List.mem_cons_self, hy⟩
      · obtain ⟨w, hw, hf⟩ := hout z hz
        exact ⟨w, List.mem_cons_of_mem _ hw, hf⟩

theorem weightsFromGguf_layers {hdr : GGUFHeader} {cfg : Config} {layers : List LayerTypes}
    (h : weightsFromGguf hdr cfg = some layers) : (List.range cfg.nLayers.toNat).mapM (loadLayer hdr cfg) = some layers := by
  unfold weightsFromGguf at h
  split at h
  · cases h
  split at h
  · cases h
  simp only [Option.bind_eq_bind, Option.bind_eq_some_iff] at h
  obtain ⟨ls, hls, h⟩ := h
  split at h
  · cases h
  · cases h
    exact hls

/-- A model of one layer with a dimension of 256 and one head, where only the down projection is of type Q4_K. -/
def q4kDownHeader (hiddenDim : Nat) : GGUFHeader :=
  { GGUFHeader.ofCounts 3 11 6 with
    metas := [⟨ascii "general.architecture", .string, .string (ascii "llama") 5⟩,
      ⟨ascii "llama.embedding_length", .uint32, .scalar 256⟩, ⟨ascii "llama.block_count", .uint32, .scalar 1⟩,
      ⟨ascii "llama.attention.head_count", .uint32, .scalar 1⟩,
      ⟨ascii "llama.feed_forward_length", .uint32, .scalar hiddenDim⟩, ⟨ascii "llama.vocab_size", .uint32, .scalar 32⟩]
    tensors := (List.map (resolveTensor (4096 + 896) (543744 + 1168 * hiddenDim))
      [⟨ascii "token_embd.weight", [256, 32], .f16, 0, none, 0⟩, ⟨ascii "output_norm.weight", [256], .f32, 16384, none, 0⟩,
        ⟨ascii "blk.0.attn_norm.weight", [256], .f32, 17408, none, 0⟩,
        ⟨ascii "blk.0.ffn_norm.weight", [256], .f32, 18432, none, 0⟩,
        ⟨ascii "blk.0.attn_q.weight", [256, 256], .f16, 19456, none, 0⟩,
        ⟨ascii "blk.0.attn_k.weight", [256, 256], .f16, 150528, none, 0⟩,
        ⟨ascii "blk.0.attn_v.weight", [256, 256], .f16, 281600, none, 0⟩,
        ⟨ascii "blk.0.attn_output.weight", [256, 256], .f16, 412672, none, 0⟩,
        ⟨ascii "blk.0.ffn_gate.weight", [256, hiddenDim], .f16, 543744, none, 0⟩,
        ⟨ascii "blk.0.ffn_down.weight", [hiddenDim, 256], .q4_K, 543744 + 512 * hiddenDim, none, 0⟩,
        ⟨ascii "blk.0.ffn_up.weight", [256, hiddenDim], .f16, 543744 + 656 * hiddenDim, none, 0⟩])
    dataRegion := 4096 + 896
    dataRegionSize := 543744 + 1168 * hiddenDim
    arch := ascii "llama" }

def q4kDownModel (hiddenDim : Nat) : Model :=
  ⟨⟨256, hiddenDim, 1, 1, 1, 32, 4096, 0, 1, -1, -1, 4096⟩, false, [⟨.f16, .f16, .f16, .f16, .f16, .q4kX8, .f16⟩]⟩

/-- The stack arrays of a loaded model hold what its forward pass quantizes into them exactly if the file keeps the inputs
of its quantized projections below 65 blocks; those of a ternary model always do. -/
theorem act_buffers_fit_iff {hdr : GGUFHeader} {m : Model} (hload : Loads hdr m) :
    (m.BuffersFit ↔ HeaderFits hdr m.cfg) ∧ ∀ t : Model, t.layersAreTernary = true → t.BuffersFit := by
  refine ⟨?_, fun t => ternary_buffersFit⟩
  obtain ⟨-, hweights, hternary⟩ := hload
  obtain ⟨hin, hout⟩ := mem_of_mapM (weightsFromGguf_layers hweights)
  unfold Model.BuffersFit HeaderFits
  constructor
  · intro h l hl
    obtain ⟨t, ht, hlayer⟩ := hout l (List.mem_range.2 hl)
    rw [← loadLayer_fits_iff hlayer, ← layer_fits_iff hternary]
    exact h t ht
  · intro h t ht
    obtain ⟨l, hl, hlayer⟩ := hin t ht
    rw [layer_fits_iff hternary, loadLayer_fits_iff hlayer]
    exact h l (List.mem_range.1 hl)

theorem act_buffers_fit_iff_64_blocks : (q4kDownModel 16384).BuffersFit :=
  (@act_buffers_fit_iff (q4kDownHeader 16384) (q4kDownModel 16384) (by unfold Loads; decide +kernel)).1.2 (by decide +kernel)

/-- A feed-forward layer of 65 blocks. -/
theorem down_input_overflows : ¬ ∀ (hdr : GGUFHeader) (m : Model), Loads hdr m → m.BuffersFit := by
  intro h
  have hfit := h (q4kDownHeader 16640) (q4kDownModel 16640) (by unfold Loads; decide +kernel)
  unfold Model.BuffersFit at hfit
  exact absurd hfit (by decide +kernel)

end BitForge.ActBuffers
