/-
When exporter and loader of the dense BitNet format agree. The layouts always do; the entries of a
matrix do unless the conversion to `int8`, made before the clipping, changes the sign of a weight.
-/
import BitForge.Dense.Decode

namespace BitForge.Dense

open BitForge.Lib BitForge.Format

/-! ## Checkpoints -/

def NormName.layer : NormName → Option Nat
  | att l | ffn l | attnSub l | ffnSub l => some l
  | final => none

def MatrixName.layer : MatrixName → Option Nat
  | wq l | wk l | wv l | wo l | w1 l | w3 l | w2 l => some l
  | lmHead => none

def BitnetConfig.kvDim (c : BitnetConfig) : Nat := c.dim / c.nHeads * c.nKvHeads

def BitnetConfig.normDim (c : BitnetConfig) : NormName → Nat
  | .ffnSub _ => c.hiddenDim
  | _ => c.dim

/-- The rows and columns of a matrix. -/
def BitnetConfig.shape (c : BitnetConfig) : MatrixName → Nat × Nat
  | .wq _ | .wo _ => (c.dim, c.dim)
  | .wk _ | .wv _ => (c.kvDim, c.dim)
  | .w1 _ | .w3 _ => (c.hiddenDim, c.dim)
  | .w2 _ => (c.dim, c.hiddenDim)
  | .lmHead => (c.vocabSize, c.dim)

def Embedding.length : Embedding → Nat
  | floats words => words.length
  | bf16 words => words.length

/-- The dimensions of a BitNet model: what `config_read` checks, rows of whole bytes, and matrices
below `2 ^ 31` entries. -/
structure Admissible (c : BitnetConfig) : Prop where
  dim : 0 < c.dim
  hiddenDim : 0 < c.hiddenDim
  nLayers : 0 < c.nLayers
  nHeads : 0 < c.nHeads
  nKvHeads : 0 < c.nKvHeads
  vocabSize : 0 < c.vocabSize
  heads : c.dim % c.nHeads = 0
  kvHeads : c.nHeads % c.nKvHeads = 0
  dim4 : c.dim % 4 = 0
  hiddenDim4 : c.hiddenDim % 4 = 0
  small : ∀ (m : MatrixName) (l : Nat), m.layer = some l → (c.shape m).1 * (c.shape m).2 < 2 ^ 31

/-- The checkpoint has all tensors that `convert` names, with the shapes of the configuration; the
`lm_head` may be missing. -/
structure Complete (c : BitnetConfig) (k : Checkpoint) : Prop where
  embed : ∃ e, k.embed = some e ∧ e.length = c.vocabSize * c.dim
  norm : ∀ n : NormName, (∀ l, n.layer = some l → l < c.nLayers) →
    ∃ words, k.norm n = some words ∧ words.length = c.normDim n
  matrix : ∀ (m : MatrixName) (l : Nat), m.layer = some l → l < c.nLayers →
    ∃ x, k.matrix m = some x ∧ x.rows = (c.shape m).1 ∧ x.cols = (c.shape m).2
  lmHead : ∀ x, k.matrix .lmHead = some x → x.rows = c.vocabSize ∧ x.cols = c.dim

/-- Exporter and loader agree on a checkpoint: the file is written, the configuration and the
weights are read, the pointers and scales are those of the written tensors, and an entry that the
kernel decodes is the ternary value of the checkpoint. -/
def Agreement (np : NumPy) (c : BitnetConfig) (k : Checkpoint) : Prop :=
  ∃ f cfg mapped, convert np c k = some f ∧ configRead f.bytes f.bytes.length = .ok cfg ∧
    weightsMap cfg (f.bytes.drop 64) = some mapped ∧
    mapped.map (fun m => { m with offset := m.offset + 64 }) = f.written.filter (·.tensor ≠ .matrix .lmHead) ∧
    ∀ t ∈ mapped, ∀ m x, t.tensor = .matrix m → k.matrix m = some x → ∀ i < x.rows, ∀ j < x.cols,
      ternaryEntry (f.bytes.drop 64) t.offset x.cols i j = some (x.value np i j)

/-! ## `config_read` on the header -/

/-- The configuration that the loader reads. -/
def BitnetConfig.config (c : BitnetConfig) : Config :=
  { dim := c.dim
    hiddenDim := c.hiddenDim
    nLayers := c.nLayers
    nHeads := c.nHeads
    nKvHeads := c.nKvHeads
    vocabSize := c.vocabSize
    seqLen := c.seqLen
    actType := 1
    ropeTheta := 0x48F42400
    scaleMode := 0
    bosTokenId := -1
    eosTokenId := -1
    rmsNormEps := 0x3727C5AC
    ropeFreqScale := 0x3F800000
    ropeYarnExtFactor := 0
    ropeYarnAttnFactor := 0x3F800000
    ropeYarnBetaFast := 0x42000000
    ropeYarnBetaSlow := 0x3F800000
    ropeOrigCtxLen := c.seqLen
    ropeYarnLogMul := 0 }

theorem rd32_header (c : BitnetConfig) (data : List UInt8) {i : Nat} (hi : i < 12) :
    rd32 (header c ++ data) (4 * i) = (headerWords c).getD i 0 % 2 ^ 32 := by
  have hlen : i < (headerWords c).length := hi
  unfold header padTo64
  rw [List.append_assoc, rd32_words _ _ hlen]

theorem toInt32_int32Word {z : Int} (h0 : -2 ^ 31 ≤ z) (h1 : z < 2 ^ 31) : toInt32 (int32Word z) = z := by
  unfold toInt32 int32Word
  split_ifs <;> omega

theorem readFields_header {c : BitnetConfig} (hp : packable c) (data : List UInt8) :
    readFields (header c ++ data) 8 = c.config := by
  have hf := fun i (hi : i < 12) => rd32_header c data hi
  have h2 := hf 2 (by decide)
  have h3 := hf 3 (by decide)
  have h4 := hf 4 (by decide)
  have h5 := hf 5 (by decide)
  have h6 := hf 6 (by decide)
  have h7 := hf 7 (by decide)
  have h8 := hf 8 (by decide)
  have h9 := hf 9 (by decide)
  have h10 := hf 10 (by decide)
  have h11 := hf 11 (by decide)
  simp only [headerWords, List.getD_cons_zero, List.getD_cons_succ, Nat.reduceMul] at h2 h3 h4 h5 h6 h7 h8 h9 h10 h11
  simp only [packable, List.all_cons, List.all_nil, Bool.and_true, Bool.and_eq_true, decide_eq_true_eq] at hp
  obtain ⟨⟨hd, hh, hl, hn, hkv, hv⟩, hs0, hs1⟩ := hp
  unfold readFields BitnetConfig.config
  simp only [Nat.reduceAdd, Nat.reduceMul, h2, h3, h4, h5, h6, h7, h8, h9, h10, h11, toInt32_mod, toInt32_of_lt hd,
    toInt32_of_lt hh, toInt32_of_lt hl, toInt32_of_lt hn, toInt32_of_lt hkv, toInt32_of_lt hv, toInt32_int32Word hs0 hs1]
  simp [toInt32]

theorem configRead_header {c : BitnetConfig} (hc : Admissible c) (hp : packable c) {data : List UInt8} {n : Nat}
    (hn : 88 ≤ n) : configRead (header c ++ data) n = .ok c.config := by
  have hmagic := rd32_header c data (show 0 < 12 by decide)
  have hversion := rd32_header c data (show 1 < 12 by decide)
  simp only [headerWords, List.getD_cons_zero, List.getD_cons_succ, Nat.reduceMul, Nat.reducePow, Nat.reduceMod] at hmagic hversion
  have hsize : n ≥ 8 + sizeofConfig := hn
  have hpos : c.config.dim > 0 ∧ c.config.nLayers > 0 := by
    have hdim := hc.dim
    have hlayers := hc.nLayers
    constructor
    · show (c.dim : Int) > 0; omega
    · show (c.nLayers : Int) > 0; omega
  have hheads : c.config.nHeads ≠ 0 ∧ c.config.dim.tmod c.config.nHeads = 0 := by
    have hne := hc.nHeads
    constructor
    · show (c.nHeads : Int) ≠ 0; omega
    · show (c.dim : Int).tmod c.nHeads = 0
      rw [← Int.ofNat_tmod, hc.heads]
      rfl
  have hkvHeads : c.config.nKvHeads ≠ 0 ∧ c.config.nHeads.tmod c.config.nKvHeads = 0 := by
    have hne := hc.nKvHeads
    constructor
    · show (c.nKvHeads : Int) ≠ 0; omega
    · show (c.nHeads : Int).tmod c.nKvHeads = 0
      rw [← Int.ofNat_tmod, hc.kvHeads]
      rfl
  unfold configRead
  simp only [hsize, hmagic, hversion, readFields_header hp, hpos, hheads, hkvHeads, not_true_eq_false, if_false,
    and_self, ne_eq, not_false_eq_true]
  rfl

/-! ## The steps of the loader -/

/-- The sizes that the loader computes for the configuration. -/
def BitnetConfig.sizes (c : BitnetConfig) : Sizes :=
  { dim := c.dim
    hiddenDim := c.hiddenDim
    kvDim := c.kvDim
    nLayers := c.nLayers
    vocabSize := c.vocabSize }

theorem sizes_config (c : BitnetConfig) : c.config.sizes = c.sizes := by
  have hkv : ((c.dim : Int).tdiv c.nHeads * c.nKvHeads).toNat = c.kvDim := by
    rw [← Int.ofNat_tdiv, ← Int.natCast_mul, Int.toNat_natCast]
    rfl
  unfold Config.sizes BitnetConfig.config BitnetConfig.sizes
  simp only [Int.toNat_natCast, hkv]

/-- The steps of the loader, on their tensors. -/
inductive StepOf (c : BitnetConfig) : TensorName × MapStep → Prop
  | embed : StepOf c (.embed, .plain (c.vocabSize * c.dim * 2))
  | norm (n : NormName) (h : ∀ l, n.layer = some l → l < c.nLayers) : StepOf c (.norm n, .plain (c.normDim n * 4))
  | matrix (m : MatrixName) (l : Nat) (hm : m.layer = some l) (hl : l < c.nLayers) :
    StepOf c (.matrix m, .scaled (packedBytes ((c.shape m).1 * (c.shape m).2)))

theorem stepOf_mapSteps (c : BitnetConfig) : ∀ p ∈ mapSteps c.sizes, StepOf c p := by
  have hlayer : ∀ l < c.nLayers, ∀ p ∈ layerSteps c.sizes l, StepOf c p := by
    intro l hl p hp
    have hnorm : ∀ n : NormName, n.layer = some l → StepOf c (.norm n, .plain (c.normDim n * 4)) := by
      intro n hn
      refine .norm n fun k hk => ?_
      rw [hn] at hk
      cases hk
      exact hl
    have hmat : ∀ m : MatrixName, m.layer = some l → ∀ size, size = (c.shape m).1 * (c.shape m).2 →
        StepOf c (.matrix m, .scaled (packedBytes size)) := by
      rintro m hm size rfl
      exact .matrix m l hm hl
    simp only [layerSteps, List.mem_cons, List.not_mem_nil, or_false] at hp
    rcases hp with rfl | rfl | rfl | rfl | rfl | rfl | rfl | rfl | rfl | rfl | rfl
    · exact hnorm (.att l) rfl
    · exact hnorm (.ffn l) rfl
    · exact hmat (.wq l) rfl _ rfl
    · exact hmat (.wk l) rfl _ (Nat.mul_comm ..)
    · exact hmat (.wv l) rfl _ (Nat.mul_comm ..)
    · exact hnorm (.attnSub l) rfl
    · exact hmat (.wo l) rfl _ rfl
    · exact hmat (.w1 l) rfl _ (Nat.mul_comm ..)
    · exact hmat (.w3 l) rfl _ (Nat.mul_comm ..)
    · exact hnorm (.ffnSub l) rfl
    · exact hmat (.w2 l) rfl _ rfl
  intro p hp
  unfold mapSteps at hp
  rcases List.mem_append.1 hp with hp | hp
  · rcases List.mem_cons.1 hp with rfl | hp
    · exact .embed
    · obtain ⟨l, hl, hp⟩ := List.mem_flatMap.1 hp
      exact hlayer l (List.mem_range.1 hl) p hp
  · cases List.mem_singleton.1 hp
    exact .norm .final (by rintro l h; cases h)

/-- The tensors that the loader maps. -/
def mappedNames (c : BitnetConfig) : List TensorName := (mapSteps c.sizes).map Prod.fst

theorem matrix_mem_mappedNames {c : BitnetConfig} {m : MatrixName} {l : Nat} (hm : m.layer = some l) (hl : l < c.nLayers) :
    TensorName.matrix m ∈ mappedNames c := by
  unfold mappedNames mapSteps
  rw [List.map_append, List.map_cons, List.map_flatMap]
  apply List.mem_append_left
  apply List.mem_cons_of_mem
  refine List.mem_flatMap.2 ⟨l, List.mem_range.2 hl, ?_⟩
  cases m <;> cases hm <;> simp [layerSteps]

theorem mappedNames_matrix {c : BitnetConfig} {m : MatrixName} (h : TensorName.matrix m ∈ mappedNames c) :
    ∃ l, m.layer = some l ∧ l < c.nLayers := by
  obtain ⟨⟨t, step⟩, hp, rfl⟩ := List.mem_map.1 h
  cases stepOf_mapSteps c _ hp with
  | matrix m l hm hl => exact ⟨l, hm, hl⟩

/-- The exporter writes the tensors in the order of the loader, and then the classifier. -/
theorem exportOrder_eq {c : BitnetConfig} {k : Checkpoint} (hk : Complete c k) :
    exportOrder c k = mappedNames c ++ (if (k.matrix .lmHead).isSome then [.matrix .lmHead] else []) := by
  have hlayer : ∀ l ∈ List.range c.nLayers, layerOrder k l = (layerSteps c.sizes l).map Prod.fst := by
    intro l hl
    have hl := List.mem_range.1 hl
    obtain ⟨a, ha, -⟩ := hk.norm (.attnSub l) (by rintro _ ⟨⟩; exact hl)
    obtain ⟨b, hb, -⟩ := hk.norm (.ffnSub l) (by rintro _ ⟨⟩; exact hl)
    unfold layerOrder layerSteps
    rw [ha, hb]
    rfl
  unfold exportOrder mappedNames mapSteps
  rw [List.map_append, List.map_cons, List.map_flatMap]
  show _ :: (List.range c.nLayers).flatMap (layerOrder k) ++ _ = _
  rw [List.flatMap_congr hlayer]
  simp only [List.map_cons, List.map_nil, List.append_assoc, List.cons_append, List.nil_append]
  rfl

/-! ## The loader on the file -/

section

variable {np : NumPy} {c : BitnetConfig} {k : Checkpoint}

theorem length_payload_embed (np : NumPy) {e : Embedding} (h : k.embed = some e) : (payload np k .embed).length = e.length * 2 := by
  show (processAndWriteBf16 [] k.embed).length = e.length * 2
  rw [h]
  cases e <;> simp [processAndWriteBf16, Embedding.length, le16, List.length_flatMap]

theorem length_payload_norm (np : NumPy) {n : NormName} {words : List UInt32} (h : k.norm n = some words) :
    (payload np k (.norm n)).length = words.length * 4 := by
  show (processAndWriteRaw [] (k.norm n)).length = words.length * 4
  rw [h]
  simp [processAndWriteRaw, List.length_flatMap]

theorem payload_matrix {m : MatrixName} {x : Matrix} (h : k.matrix m = some x) :
    payload np k (.matrix m) = packTernaryArray x.rows x.cols (x.quantized np) ++ le32 (x.scale np).toNat := by
  show processAndWritePacked np [] (k.matrix m) = _
  rw [h]
  rfl

theorem scaleOf_matrix {m : MatrixName} {x : Matrix} (h : k.matrix m = some x) :
    scaleOf np k (.matrix m) = some (x.scale np).toNat := by
  show (k.matrix m).map _ = _
  rw [h]
  rfl

/-- Each step of the loader finds its tensor, and the scale of a matrix. -/
theorem mapTensor_block (hc : Admissible c) (hk : Complete c k) {p : TensorName × MapStep} (hp : StepOf c p)
    {pre : List UInt8} (hpre : pre.length % 64 = 0) (post : List UInt8) :
    mapTensor (pre ++ block np k p.1 ++ post) pre.length p =
      some (located np k pre.length p.1, pre.length + (block np k p.1).length) := by
  cases hp with
  | embed =>
    obtain ⟨e, he, hlen⟩ := hk.embed
    rw [← hlen, ← length_payload_embed np he]
    exact mapTensor_plain hpre _ post
  | norm n h =>
    obtain ⟨words, hn, hlen⟩ := hk.norm n h
    rw [← hlen, ← length_payload_norm np hn]
    exact mapTensor_plain hpre _ post
  | matrix m l hm hl =>
    obtain ⟨x, hx, hr, hcols⟩ := hk.matrix m l hm hl
    have hbytes : (packTernaryArray x.rows x.cols (x.quantized np)).length =
        packedBytes ((c.shape m).1 * (c.shape m).2) := by
      rw [length_packTernaryArray, packedBytes_of_lt (hc.small m l hm), hr, hcols]
    unfold located block
    rw [payload_matrix hx, scaleOf_matrix hx, ← hbytes]
    exact mapTensor_scaled hpre _ (x.scale np).toNat_lt post

/-- What the loader maps. -/
def mapped (np : NumPy) (c : BitnetConfig) (k : Checkpoint) : List Located :=
  itemsAt (block np k) (located np k) 0 (mappedNames c)

/-- What stands behind the mapped tensors. -/
def fileTail (np : NumPy) (c : BitnetConfig) (k : Checkpoint) : List UInt8 :=
  (if (k.matrix .lmHead).isSome then [TensorName.matrix .lmHead] else []).flatMap (block np k) ++
    footer c (64 + ((exportOrder c k).flatMap (block np k)).length)

theorem fileData_eq (hk : Complete c k) :
    fileData np c k = (mappedNames c).flatMap (block np k) ++ fileTail np c k := by
  unfold fileData fileTail
  dsimp only
  rw [← List.append_assoc, ← List.flatMap_append, ← exportOrder_eq hk]

theorem weightsMap_file (hc : Admissible c) (hk : Complete c k) :
    weightsMap c.config (fileData np c k) = some (mapped np c k) := by
  have hrun := readItems_written (fun p : TensorName × MapStep => block np k p.1) (fun q p => located np k q p.1)
    (fun n => n % 64 = 0) mapTensor (mapSteps c.sizes) [] (fileTail np c k) rfl
    (fun p _ n hn => by rw [Nat.add_mod, hn, block_mod])
    (fun p hp pre post hpre => mapTensor_block hc hk (stepOf_mapSteps c p hp) hpre post)
  rw [List.nil_append, List.length_nil] at hrun
  unfold weightsMap
  rw [sizes_config, fileData_eq hk, mappedNames, List.flatMap_map, hrun, Option.map_some,
    itemsAt_comp (block np k) (located np k) Prod.fst]
  rfl

/-- The file is long enough for `config_read`. -/
theorem length_file (hc : Admissible c) (hk : Complete c k) : 88 ≤ (header c ++ fileData np c k).length := by
  obtain ⟨e, he, hlen⟩ := hk.embed
  have hdim := Nat.mul_pos hc.vocabSize hc.dim
  have hbytes := length_payload_embed np he
  have hle := le_alignUp (payload np k .embed).length
  have hmod := alignUp_mod (payload np k .embed).length
  have hblock : (block np k .embed).length = alignUp (payload np k .embed).length := by
    unfold block
    rw [length_padTo64]
  have hdata : (block np k .embed).length ≤ (fileData np c k).length := by
    unfold fileData exportOrder
    simp only [List.cons_append, List.flatMap_cons, List.length_append]
    omega
  rw [List.length_append, length_header]
  omega

/-- The entries of a mapped matrix are those that the converter has packed. -/
theorem ternaryEntry_mapped (hc : Admissible c) (hk : Complete c k) {t : Located} (ht : t ∈ mapped np c k)
    {m : MatrixName} {x : Matrix} (hm : t.tensor = .matrix m) (hx : k.matrix m = some x) {i j : Nat} (hi : i < x.rows)
    (hj : j < x.cols) : ternaryEntry (fileData np c k) t.offset x.cols i j = some (x.quantized np i j) := by
  obtain ⟨as, n, bs, hnames, rfl⟩ := mem_itemsAt (block np k) (located np k) ht
  obtain rfl : n = .matrix m := hm
  obtain ⟨l, hml, hl⟩ := mappedNames_matrix (show TensorName.matrix m ∈ mappedNames c by rw [hnames]; simp)
  obtain ⟨x', hx', -, hcols⟩ := hk.matrix m l hml hl
  obtain rfl : x = x' := by rw [hx] at hx'; exact Option.some.inj hx'
  have hblock : block np k (.matrix m) = packTernaryArray x.rows x.cols (x.quantized np) ++
      (le32 (x.scale np).toNat ++ List.replicate ((64 - (payload np k (.matrix m)).length % 64) % 64) 0) := by
    unfold block padTo64
    conv_lhs => enter [1]; rw [payload_matrix hx]
    rw [List.append_assoc]
  have hdata : ∃ post, fileData np c k =
      as.flatMap (block np k) ++ packTernaryArray x.rows x.cols (x.quantized np) ++ post := by
    rw [fileData_eq hk, hnames, List.flatMap_append, List.flatMap_cons, hblock]
    exact ⟨_, by simp only [List.append_assoc]; rfl⟩
  obtain ⟨post, hdata⟩ := hdata
  have h4 : x.cols % 4 = 0 := by
    rw [hcols]
    cases m with
    | w2 => exact hc.hiddenDim4
    | _ => exact hc.dim4
  have hlt : x.cols < 2 ^ 31 := by
    rw [hcols]
    have hd := hc.small (.wq 0) 0 rfl
    have hh := hc.small (.w1 0) 0 rfl
    have hdim : c.dim ≤ c.dim * c.dim := Nat.le_mul_self _
    have hhid : c.hiddenDim ≤ c.hiddenDim * c.dim := Nat.le_mul_of_pos_right _ hc.dim
    cases m with
    | w2 => exact Nat.lt_of_le_of_lt hhid hh
    | _ => exact Nat.lt_of_le_of_lt hdim hd
  rw [hdata]
  show ternaryEntry _ (0 + (as.flatMap (block np k)).length) x.cols i j = _
  rw [Nat.zero_add]
  exact ternaryEntry_packed (fun i hi j _ => quantized_mem np x hi j) h4 hlt _ post hi hj

/-- The pointers and scales of the loader are those of the tensors written, the classifier apart. -/
theorem mapped_written (hk : Complete c k) :
    (mapped np c k).map (fun m => { m with offset := m.offset + 64 }) =
      (itemsAt (block np k) (located np k) 64 (exportOrder c k)).filter (·.tensor ≠ .matrix .lmHead) := by
  have hkeep : ∀ t ∈ itemsAt (block np k) (located np k) 64 (mappedNames c), t.tensor ≠ .matrix .lmHead := by
    intro t ht hlm
    obtain ⟨as, n, bs, hnames, rfl⟩ := mem_itemsAt (block np k) (located np k) ht
    obtain rfl : n = .matrix .lmHead := hlm
    obtain ⟨l, hl, -⟩ := mappedNames_matrix (show TensorName.matrix .lmHead ∈ mappedNames c by rw [hnames]; simp)
    cases hl
  rw [exportOrder_eq hk, itemsAt_append, List.filter_append, List.filter_eq_self.2 fun t ht => decide_eq_true (hkeep t ht)]
  have hshift := itemsAt_shift (block np k) (located np k) 64 (mappedNames c) 0
  rw [Nat.zero_add] at hshift
  unfold mapped
  rw [itemsAt_map, hshift]
  split_ifs <;> simp [itemsAt, located]

end

/-! ## Agreement -/

/-- Exporter and loader agree on a checkpoint exactly when the header fields fit their words and no
sign of a weight is lost in the conversion to `int8`. -/
theorem agreement_iff_kept {np : NumPy} {c : BitnetConfig} {k : Checkpoint} (hc : Admissible c) (hk : Complete c k) :
    Agreement np c k ↔ packable c ∧
      ∀ (m : MatrixName) (l : Nat), m.layer = some l → l < c.nLayers → ∀ x, k.matrix m = some x → x.QuotientsKept np := by
  have hdrop : (header c ++ fileData np c k).drop 64 = fileData np c k := List.drop_left' (length_header c)
  constructor
  · rintro ⟨f, cfg, ms, hf, hcfg, hmap, -, hdec⟩
    rw [convert_eq] at hf
    split_ifs at hf with hp
    cases hf
    dsimp only at hcfg hmap hdec
    rw [configRead_header hc hp (length_file hc hk)] at hcfg
    cases hcfg
    rw [hdrop, weightsMap_file hc hk] at hmap
    cases hmap
    refine ⟨hp, fun m l hm hl x hx => (quantized_eq_value_iff np x).1 fun i hi j hj => ?_⟩
    obtain ⟨q, hq⟩ := itemsAt_mem (block np k) (located np k) (p := 0) (matrix_mem_mappedNames hm hl)
    have hval := hdec _ hq m x rfl hx i hi j hj
    rw [hdrop, ternaryEntry_mapped hc hk hq rfl hx hi hj] at hval
    exact Option.some.inj hval
  · rintro ⟨hp, hkept⟩
    refine ⟨⟨header c ++ fileData np c k, itemsAt (block np k) (located np k) 64 (exportOrder c k)⟩, c.config,
      mapped np c k, ?_, ?_, ?_, ?_, ?_⟩
    · rw [convert_eq, if_pos hp]
    · exact configRead_header hc hp (length_file hc hk)
    · rw [hdrop, weightsMap_file hc hk]
    · exact mapped_written hk
    · intro t ht m x hm hx i hi j hj
      obtain ⟨as, n, bs, hnames, rfl⟩ := mem_itemsAt (block np k) (located np k) ht
      obtain rfl : n = .matrix m := hm
      obtain ⟨l, hml, hl⟩ := mappedNames_matrix (show TensorName.matrix m ∈ mappedNames c by rw [hnames]; simp)
      rw [hdrop, ternaryEntry_mapped hc hk ht rfl hx hi hj]
      exact congrArg some ((quantized_eq_value_iff np x).2 (hkept m l hml hl x hx) i hi j hj)

/-- The same with the condition on the floats of the checkpoint written out. -/
theorem convert_agrees_iff {np : NumPy} {c : BitnetConfig} {k : Checkpoint} (hc : Admissible c) (hk : Complete c k) :
    Agreement np c k ↔ packable c ∧
      ∀ (m : MatrixName) (l : Nat), m.layer = some l → l < c.nLayers → ∀ rows cols w,
        k.matrix m = some (.floats rows cols w) → ∀ i < rows, ∀ j < cols,
          (np.toInt8 (np.round (np.quotient (w i j) ((Matrix.floats rows cols w).scale np)))).sign =
            (np.round (np.quotient (w i j) ((Matrix.floats rows cols w).scale np))).sign := by
  rw [agreement_iff_kept hc hk]
  refine and_congr_right fun _ => ?_
  constructor
  · intro h m l hm hl rows cols w hx
    exact h m l hm hl _ hx
  · intro h m l hm hl x hx
    cases x with
    | floats rows cols w => exact h m l hm hl rows cols w hx
    | msPacked packedRows cols bytes scale => trivial

/-- One layer, and matrices of 16 rows and 16 columns. -/
def sampleConfig : BitnetConfig := ⟨16, 16, 1, 1, 1, 1, 2048⟩

def sampleCheckpoint (x : Matrix) : Checkpoint where
  embed := some (.bf16 (List.replicate 16 0))
  norm _ := some (List.replicate 16 0)
  matrix
    | .lmHead => none
    | _ => some x

/-- The mean of 256 numbers that are 0 but for one 1.0; the quotient of that one is 255.9934, and 256
becomes its low byte in the conversion. -/
def sampleNumPy : NumPy where
  mean _ := 0x3B800000
  quotient w _ := if w = 0x3F800000 then 0x437FFE52 else 0
  round q := if q = 0x437FFE52 then 256 else 0
  toInt8 z := (z + 128) % 256 - 128
  toInt8_mem z := by omega
  toInt8_of_mem z h0 h1 := by omega

theorem admissible_sample : Admissible sampleConfig := by
  constructor
  case small =>
    rintro m l hm
    cases m <;> simp [BitnetConfig.shape, BitnetConfig.kvDim, sampleConfig]
  all_goals decide

theorem complete_sample {x : Matrix} (hr : x.rows = 16) (hcols : x.cols = 16) :
    Complete sampleConfig (sampleCheckpoint x) := by
  constructor
  · exact ⟨_, rfl, rfl⟩
  · intro n _
    refine ⟨_, rfl, ?_⟩
    cases n <;> rfl
  · intro m l hm _
    cases m <;> first | exact ⟨x, rfl, hr, hcols⟩ | cases hm
  · intro y hy
    cases hy

/-- A weight that is far above the mean is not written with its sign. -/
theorem outlier_disagrees :
    let x : Matrix := .floats 16 16 fun i j => if i = 0 ∧ j = 0 then 0x3F800000 else 0
    Admissible sampleConfig ∧ Complete sampleConfig (sampleCheckpoint x) ∧
      ¬ Agreement sampleNumPy sampleConfig (sampleCheckpoint x) := by
  intro x
  refine ⟨admissible_sample, complete_sample rfl rfl, fun h => ?_⟩
  obtain ⟨-, hkept⟩ := (agreement_iff_kept admissible_sample (complete_sample rfl rfl)).1 h
  have hsign := hkept (.wq 0) 0 rfl (by decide) x rfl 0 (by decide) 0 (by decide)
  exact absurd hsign (by decide)

/-- The same on numbers that are 1.0 and -1.0: their mean is 1.0, and the quotients are the next numbers below. -/
def signNumPy : NumPy where
  mean _ := 0x3F800000
  quotient w _ := if w = 0x3F800000 then 0x3F7FFFFE else if w = 0xBF800000 then 0xBF7FFFFE else 0
  round q := if q = 0x3F7FFFFE then 1 else if q = 0xBF7FFFFE then -1 else 0
  toInt8 := sampleNumPy.toInt8
  toInt8_mem := sampleNumPy.toInt8_mem
  toInt8_of_mem := sampleNumPy.toInt8_of_mem

theorem signNumPy_round (q : UInt32) : -128 ≤ signNumPy.round q ∧ signNumPy.round q ≤ 127 := by
  unfold signNumPy
  dsimp only
  split_ifs <;> decide

/-- A matrix of signs agrees. -/
theorem convert_agrees_signs :
    Agreement signNumPy sampleConfig
      (sampleCheckpoint (.floats 16 16 fun i j => if i ≤ j then 0x3F800000 else 0xBF800000)) :=
  (convert_agrees_iff admissible_sample (complete_sample rfl rfl)).2 ⟨by decide, by
    intro m l _ _ rows cols w _ i _ j _
    obtain ⟨hlow, hhigh⟩ := signNumPy_round (signNumPy.quotient (w i j) ((Matrix.floats rows cols w).scale signNumPy))
    rw [signNumPy.toInt8_of_mem _ hlow hhigh]⟩

end BitForge.Dense
