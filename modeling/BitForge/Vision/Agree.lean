/-
When the files of `extract_multimodal.py` are loaded as they were written: when the arrays have the
lengths that the header stands for. The feed-forward block is another matter: the place of `w3` holds
zeros, and the encoder multiplies by it.
-/
import BitForge.Vision.Load

namespace BitForge.Vision

open BitForge.Lib

/-! ## What an adapter writes -/

/-- The number of patches in the header. -/
def numPatches (p : VisionParams) (a : Adapter) : Nat := (resolution a / p.patchSize) ^ 2

def VisionParams.patchDim (p : VisionParams) : Nat := p.patchSize * p.patchSize * 3

def layerFields (l : Nat) : List Field :=
  [.rmsAtt l, .rmsFfn l, .wq l, .wk l, .wv l, .wo l, .w1 l, .w2 l, .w3 l]

def visionFields (n : Nat) : List Field :=
  [.patchProjW, .patchProjB, .posEmbed, .rmsFinal] ++ (List.range n).flatMap layerFields

/-- A vision file of these parameters. -/
structure VisionWritten (p : VisionParams) (patches : Nat) (f : OutFile Field) : Prop where
  patchSize : p.patchSize ≠ 0
  packed : ∀ n ∈ [p.nLayers, p.embedDim, p.hiddenDim, p.nHeads, p.patchDim, patches], n < 2 ^ 31
  header : f.header = [0x57535956, 1, p.nLayers, p.embedDim, p.hiddenDim, p.nHeads, p.patchDim, patches]
  fields : f.written.map Prod.fst = visionFields p.nLayers
  w3 : ∀ l d, (Field.w3 l, d) ∈ f.written → d = zeros (p.hiddenDim * p.embedDim)

theorem writeLayer_spec {t : Tensors} {pfx : String} {p : VisionParams} {l : Nat} {ws : List (Field × List UInt32)}
    (h : writeLayer t pfx p l = some ws) :
    ws.map Prod.fst = layerFields l ∧ ∀ k d, (Field.w3 k, d) ∈ ws → d = zeros (p.hiddenDim * p.embedDim) := by
  unfold writeLayer at h
  simp only [Option.bind_eq_bind, Option.bind_eq_some_iff, Option.pure_def, Option.some.injEq] at h
  obtain ⟨n1, -, n2, -, q, -, k, -, v, -, o, -, fc1, -, fc2, -, rfl⟩ := h
  refine ⟨rfl, fun j d hd => ?_⟩
  simp only [List.mem_cons, Prod.mk.injEq, List.not_mem_nil, or_false, reduceCtorEq, false_and, false_or,
    Field.w3.injEq] at hd
  exact hd.2

theorem writeLayers_spec {t : Tensors} {pfx : String} {p : VisionParams} : ∀ {ls : List Nat}
    {ws : List (List (Field × List UInt32))}, ls.mapM (writeLayer t pfx p) = some ws →
      ws.flatten.map Prod.fst = ls.flatMap layerFields ∧
        ∀ k d, (Field.w3 k, d) ∈ ws.flatten → d = zeros (p.hiddenDim * p.embedDim)
  | [], ws, h => by
    cases h
    exact ⟨rfl, fun _ _ hd => absurd hd List.not_mem_nil⟩
  | l :: ls, ws, h => by
    rw [List.mapM_cons] at h
    simp only [Option.bind_eq_bind, Option.bind_eq_some_iff, Option.pure_def, Option.some.injEq] at h
    obtain ⟨w, hw, rest, hrest, rfl⟩ := h
    obtain ⟨hf, h3⟩ := writeLayer_spec hw
    obtain ⟨hfs, h3s⟩ := writeLayers_spec hrest
    refine ⟨by rw [List.flatten_cons, List.map_append, hf, hfs, List.flatMap_cons], fun k d hd => ?_⟩
    rw [List.flatten_cons] at hd
    rcases List.mem_append.1 hd with hd | hd
    · exact h3 k d hd
    · exact h3s k d hd

theorem writeVisionWeights_spec {cfg : HfConfig} {t : Tensors} {a : Adapter} {f : OutFile Field}
    (h : writeVisionWeights cfg t a = some f) : VisionWritten (visionConfig cfg a) (numPatches (visionConfig cfg a) a) f := by
  unfold writeVisionWeights at h
  simp only [Option.bind_eq_bind, Option.bind_eq_some_iff, Option.pure_def, Option.some.injEq, Option.guard_eq_some'] at h
  obtain ⟨-, hp, -, hall, w, -, w', -, pos, -, final, -, layers, hlayers, rfl⟩ := h
  obtain ⟨hfields, h3⟩ := writeLayers_spec hlayers
  constructor
  · exact hp
  · intro n hn
    exact of_decide_eq_true (List.all_eq_true.1 hall n hn)
  · rfl
  · simp [visionFields, hfields]
  · intro l d hd
    simp only [List.mem_cons, Prod.mk.injEq, reduceCtorEq, false_and, false_or] at hd
    exact h3 l d hd

/-- The words of the header of a projector file. -/
structure ProjParams where
  visionDim : Nat
  llmDim : Nat
  hiddenDim : Nat
  hasBias : Bool
  scaleFactor : Nat
deriving DecidableEq, Repr

/-- The pointers of a connector of one or of two layers. -/
def projFields (single hasBias : Bool) : List ProjField :=
  if single then .wUp :: if hasBias then [.biasUp] else []
  else (.wDown :: if hasBias then [.biasDown] else []) ++ .wUp :: if hasBias then [.biasUp] else []

/-- A projector file of these parameters. -/
structure ProjWritten (q : ProjParams) (single : Bool) (g : OutFile ProjField) : Prop where
  packed : ∀ n ∈ [q.visionDim, q.llmDim, q.hiddenDim, q.scaleFactor], n < 2 ^ 31
  header : g.header = [0x4A4F5250, 1, q.visionDim, q.llmDim, q.hiddenDim, q.hasBias.toNat, q.scaleFactor, 0]
  fields : g.written.map Prod.fst = projFields single q.hasBias

theorem projHeader_some {v l h b s : Nat} {hdr : List Nat} (hh : projHeader v l h b s = some hdr) :
    (∀ n ∈ [v, l, h, s], n < 2 ^ 31) ∧ hdr = [0x4A4F5250, 1, v, l, h, b, s, 0] := by
  unfold projHeader at hh
  split_ifs at hh with hall
  cases hh
  refine ⟨fun n hn => of_decide_eq_true (List.all_eq_true.1 hall n ?_), rfl⟩
  simp only [List.mem_cons, List.not_mem_nil, or_false] at hn ⊢
  tauto

theorem writeTwoLayers_spec {t : Tensors} {w1 b1 w2 b2 : String} {hasBias : Bool} {v l : Nat} {g : OutFile ProjField}
    (h : writeTwoLayers t w1 b1 w2 b2 hasBias v l = some g) : ∃ q, ProjWritten q false g := by
  unfold writeTwoLayers at h
  simp only [Option.bind_eq_bind, Option.bind_eq_some_iff, Option.pure_def] at h
  obtain ⟨x1, -, x2, -, hd, -, hdr, hh, hw⟩ := h
  obtain ⟨hpacked, rfl⟩ := projHeader_some hh
  refine ⟨⟨v, l, hd, hasBias, 1⟩, hpacked, ?_, ?_⟩
  · split_ifs at hw
    · simp only [Option.bind_eq_some_iff, Option.some.injEq] at hw
      obtain ⟨y1, -, y2, -, rfl⟩ := hw
      rfl
    · cases hw
      rfl
  · split_ifs at hw with hb
    · simp only [Option.bind_eq_some_iff, Option.some.injEq] at hw
      obtain ⟨y1, -, y2, -, rfl⟩ := hw
      simp [projFields, hb]
    · cases hw
      simp [projFields, hb]

theorem writeProjWeights_spec {cfg : HfConfig} {t : Tensors} {a : Adapter} {g : OutFile ProjField}
    (h : writeProjWeights cfg t a = some g) : ∃ q single, ProjWritten q single g := by
  have htwo : ∀ {w1 b1 w2 b2 : String} {hb : Bool} {v l : Nat}, writeTwoLayers t w1 b1 w2 b2 hb v l = some g →
      ∃ q single, ProjWritten q single g := by
    intro w1 b1 w2 b2 hb v l hg
    obtain ⟨q, hq⟩ := writeTwoLayers_spec hg
    exact ⟨q, false, hq⟩
  cases a with
  | moondream2 => exact htwo h
  | llava => exact htwo h
  | smolVLM =>
    simp only [writeProjWeights, writeSmolVLMConnector] at h
    split at h
    · rename_i w _
      simp only [Option.bind_eq_bind, Option.bind_eq_some_iff, Option.pure_def, Option.some.injEq] at h
      obtain ⟨hdr, hh, rfl⟩ := h
      obtain ⟨hpacked, rfl⟩ := projHeader_some hh
      refine ⟨⟨_, _, 0, _, _⟩, true, hpacked, rfl, ?_⟩
      split <;> rename_i hb <;> simp [projFields, hb]
    · exact htwo h

/-! ## The encoder's file -/

/-- The length of an array that the header stands for. -/
def fieldLength (p : VisionParams) (patches : Nat) : Field → Nat
  | .patchProjW => p.embedDim * p.patchDim
  | .patchProjB | .rmsFinal | .rmsAtt _ | .rmsFfn _ => p.embedDim
  | .posEmbed => patches * p.embedDim
  | .wq _ | .wk _ | .wv _ | .wo _ => p.embedDim * p.embedDim
  | .w1 _ | .w3 _ => p.hiddenDim * p.embedDim
  | .w2 _ => p.embedDim * p.hiddenDim

/-- The parameters are within the bounds of the loader, and the arrays have the lengths of the header. -/
structure VisionFits (p : VisionParams) (patches : Nat) (f : OutFile Field) : Prop where
  nLayers : 1 ≤ p.nLayers ∧ p.nLayers ≤ 128
  embedDim : 1 ≤ p.embedDim ∧ p.embedDim ≤ 8192
  nHeads : 1 ≤ p.nHeads ∧ p.nHeads ≤ 64
  numPatches : 1 ≤ patches
  lengths : ∀ w ∈ f.written, w.2.length = fieldLength p patches w.1

/-- Arrays have given lengths exactly when the list of their lengths is that list. -/
theorem lengths_eq_iff {F : Type} {f : OutFile F} {fields : List F} (h : f.written.map Prod.fst = fields) (g : F → Nat) :
    fields.map (fun x => (x, g x)) = f.lengths ↔ ∀ w ∈ f.written, w.2.length = g w.1 := by
  unfold OutFile.lengths
  rw [← h, List.map_map, List.map_inj_left]
  constructor
  · intro heq w hw
    exact (Prod.mk.inj (heq w hw)).2.symm
  · intro heq w hw
    exact Prod.ext rfl (heq w hw).symm

theorem sizeT_natCast {n : Nat} (h : n < 2 ^ 31) : sizeT (n : Int) = n := by
  unfold sizeT
  omega

theorem mulSize_of_lt {m n : Nat} (hm : m < 2 ^ 31) (hn : n < 2 ^ 31) : mulSize m n = m * n := by
  unfold mulSize
  have hlt : m * n < 2 ^ 31 * 2 ^ 31 := Nat.mul_lt_mul'' hm hn
  exact Nat.mod_eq_of_lt (by omega)

theorem rd32s_bytes {F : Type} {f : OutFile F} {i n : Nat} (hi : i < f.header.length) (hn : f.header.getD i 0 = n)
    (hlt : n < 2 ^ 31) : rd32s f.bytes (4 * i) = n := by
  unfold rd32s
  rw [rd32_bytes f hi, hn, toInt32_mod, toInt32_of_lt hlt]

/-- The configuration that the loader reads from the header. -/
def VisionParams.config (p : VisionParams) (patches : Nat) : VisionConfig :=
  ⟨p.nLayers, p.embedDim, p.hiddenDim, p.nHeads, p.patchDim, patches⟩

theorem readVisionHeader_bytes {p : VisionParams} {patches : Nat} {f : OutFile Field} (hw : VisionWritten p patches f) :
    readVisionHeader f.bytes = p.config patches := by
  have hlen : f.header.length = 8 := by rw [hw.header]; rfl
  have hp := hw.packed
  simp only [List.mem_cons, List.not_mem_nil, or_false, forall_eq_or_imp, forall_eq] at hp
  obtain ⟨h2, h3, h4, h5, h6, h7⟩ := hp
  have e2 := rd32s_bytes (f := f) (i := 2) (by omega) (by rw [hw.header]; rfl) h2
  have e3 := rd32s_bytes (f := f) (i := 3) (by omega) (by rw [hw.header]; rfl) h3
  have e4 := rd32s_bytes (f := f) (i := 4) (by omega) (by rw [hw.header]; rfl) h4
  have e5 := rd32s_bytes (f := f) (i := 5) (by omega) (by rw [hw.header]; rfl) h5
  have e6 := rd32s_bytes (f := f) (i := 6) (by omega) (by rw [hw.header]; rfl) h6
  have e7 := rd32s_bytes (f := f) (i := 7) (by omega) (by rw [hw.header]; rfl) h7
  unfold readVisionHeader VisionParams.config
  rw [e2, e3, e4, e5, e6, e7]

/-- The steps of the loader, in terms of the parameters. -/
theorem visionSteps_config {p : VisionParams} {patches : Nat} {f : OutFile Field} (hw : VisionWritten p patches f) :
    visionSteps (p.config patches) = (visionFields p.nLayers).map fun x => (x, fieldLength p patches x) := by
  have hp := hw.packed
  simp only [List.mem_cons, List.not_mem_nil, or_false, forall_eq_or_imp, forall_eq] at hp
  obtain ⟨h2, h3, h4, h5, h6, h7⟩ := hp
  unfold visionSteps visionFields VisionParams.config
  simp only [sizeT_natCast h3, sizeT_natCast h6, sizeT_natCast h7, mulSize_of_lt h3 h6, mulSize_of_lt h7 h3,
    Int.toNat_natCast, List.map_append, List.map_flatMap]
  congr 1
  apply List.flatMap_congr
  intro l _
  simp only [layerSteps, layerFields, sizeT_natCast h3, sizeT_natCast h4, mulSize_of_lt h3 h3, mulSize_of_lt h3 h4,
    mulSize_of_lt h4 h3, List.map_cons, List.map_nil, fieldLength]

theorem visionHeaderOk_config {p : VisionParams} {patches : Nat} (h0 : p.patchSize ≠ 0) :
    visionHeaderOk (p.config patches) ↔ (1 ≤ p.nLayers ∧ p.nLayers ≤ 128) ∧ (1 ≤ p.embedDim ∧ p.embedDim ≤ 8192) ∧
      (1 ≤ p.nHeads ∧ p.nHeads ≤ 64) ∧ 1 ≤ patches := by
  have hpatch : 1 ≤ p.patchDim := by
    have := Nat.pos_of_ne_zero h0
    exact Nat.mul_pos (Nat.mul_pos this this) (by decide)
  unfold visionHeaderOk VisionParams.config
  simp only [Bool.not_eq_true', Bool.or_eq_false_iff, decide_eq_false_iff_not]
  omega

/-- The encoder's file is loaded as it was written exactly when it fits. -/
theorem load_encoder_iff {p : VisionParams} {patches : Nat} {f : OutFile Field} (hw : VisionWritten p patches f)
    (hsize : f.bytes.length < 2 ^ 63) (c : VisionConfig) :
    visionModelLoadEncoder f.bytes = some (c, f.places) ↔ c = p.config patches ∧ VisionFits p patches f := by
  have hlen : f.header.length = 8 := by rw [hw.header]; rfl
  have hmagic : rd32 f.bytes 0 = 0x57535956 := by
    have h0 := rd32_bytes f (i := 0) (by omega)
    rw [hw.header] at h0
    simpa using h0
  have hlong : ¬ f.bytes.length < 64 := by rw [length_bytes f hlen]; omega
  have hfits : VisionFits p patches f ↔ visionHeaderOk (p.config patches) ∧ visionSteps (p.config patches) = f.lengths := by
    rw [visionHeaderOk_config hw.patchSize, visionSteps_config hw, lengths_eq_iff hw.fields]
    constructor
    · rintro ⟨ha, hb, hc, hd, hl⟩
      exact ⟨⟨ha, hb, hc, hd⟩, hl⟩
    · rintro ⟨⟨ha, hb, hc, hd⟩, hl⟩
      exact ⟨ha, hb, hc, hd, hl⟩
  rw [hfits, ← readItems_places f hlen hsize]
  unfold visionModelLoadEncoder
  rw [if_neg hlong, if_neg (not_not.2 hmagic)]
  dsimp only
  rw [readVisionHeader_bytes hw]
  split_ifs with hok
  · simp only [hok, true_and, Option.map_eq_some_iff, Prod.exists, Prod.mk.injEq]
    constructor
    · rintro ⟨ms, e, hr, rfl, rfl⟩
      exact ⟨rfl, e, hr⟩
    · rintro ⟨rfl, e, hr⟩
      exact ⟨_, e, hr, rfl, rfl⟩
  · simp [hok]

/-! ## The projector's file -/

/-- The scale factor that the loader uses. -/
def ProjParams.scale (q : ProjParams) : Nat := if q.scaleFactor = 0 then 1 else q.scaleFactor

/-- The length of an array that the header stands for. -/
def projLength (q : ProjParams) : ProjField → Nat
  | .wDown => q.hiddenDim * q.visionDim
  | .biasDown => q.hiddenDim
  | .wUp => q.llmDim * if q.hiddenDim = 0 then q.visionDim * (q.scale * q.scale) else q.hiddenDim
  | .biasUp => q.llmDim

/-- The dimensions are positive, `hidden_dim` is 0 exactly for one linear layer, the shuffled dimension
is an `int`, and the arrays have the lengths of the header. -/
structure ProjFits (q : ProjParams) (single : Bool) (g : OutFile ProjField) : Prop where
  visionDim : 1 ≤ q.visionDim
  llmDim : 1 ≤ q.llmDim
  mode : single = true ↔ q.hiddenDim = 0
  shuffle : q.hiddenDim = 0 → q.visionDim * (q.scale * q.scale) < 2 ^ 31
  lengths : ∀ w ∈ g.written, w.2.length = projLength q w.1

theorem projFields_inj {single single' b : Bool} (h : projFields single b = projFields single' b) : single = single' := by
  revert h
  cases single <;> cases single' <;> cases b <;> decide

/-- The configuration that the loader reads from the header. -/
def ProjParams.config (q : ProjParams) : ProjConfig := ⟨q.visionDim, q.llmDim, q.hiddenDim, q.hasBias, q.scale⟩

theorem mulInt_natCast (m n : Nat) :
    mulInt (m : Int) (n : Int) = if m * n < 2 ^ 31 then some ((m * n : Nat) : Int) else none := by
  unfold mulInt
  rw [← Int.natCast_mul]
  split_ifs <;> first | rfl | omega

theorem projSteps_single {q : ProjParams} (hl : q.llmDim < 2 ^ 31) (h0 : q.hiddenDim = 0) (hv : 1 ≤ q.visionDim) :
    projSteps q.config = if q.visionDim * (q.scale * q.scale) < 2 ^ 31 then
      some ((projFields true q.hasBias).map fun x => (x, projLength q x)) else none := by
  have hle : q.scale * q.scale ≤ q.visionDim * (q.scale * q.scale) := Nat.le_mul_of_pos_left _ hv
  have hsteps : projSteps q.config = (mulInt q.scale q.scale).bind fun s2 => (mulInt q.visionDim s2).bind fun d =>
      some ((.wUp, mulSize (sizeT q.llmDim) (sizeT d)) :: if q.hasBias then [(.biasUp, sizeT q.llmDim)] else []) := by
    unfold projSteps ProjParams.config
    simp only [h0, Nat.cast_zero, if_true, Option.bind_eq_bind, Option.pure_def]
  rw [hsteps, mulInt_natCast]
  by_cases hs : q.visionDim * (q.scale * q.scale) < 2 ^ 31
  · rw [if_pos hs, if_pos (by omega), Option.bind_some, mulInt_natCast, if_pos hs, Option.bind_some, sizeT_natCast hl,
      sizeT_natCast hs, mulSize_of_lt hl hs]
    cases q.hasBias <;> simp [projFields, projLength, h0]
  · rw [if_neg hs]
    by_cases hss : q.scale * q.scale < 2 ^ 31
    · rw [if_pos hss, Option.bind_some, mulInt_natCast, if_neg hs, Option.bind_none]
    · rw [if_neg hss, Option.bind_none]

theorem projSteps_two {q : ProjParams} (hv : q.visionDim < 2 ^ 31) (hl : q.llmDim < 2 ^ 31) (hh : q.hiddenDim < 2 ^ 31)
    (h0 : q.hiddenDim ≠ 0) :
    projSteps q.config = some ((projFields false q.hasBias).map fun x => (x, projLength q x)) := by
  have hne : (q.hiddenDim : Int) ≠ 0 := by omega
  unfold projSteps ProjParams.config
  simp only [hne, if_false, sizeT_natCast hv, sizeT_natCast hl, sizeT_natCast hh, mulSize_of_lt hh hv, mulSize_of_lt hl hh]
  cases q.hasBias <;> simp [projFields, projLength, h0]

theorem scale_natCast (q : ProjParams) :
    (if (q.scaleFactor : Int) ≤ 0 then (1 : Int) else q.scaleFactor) = (q.scale : Int) := by
  unfold ProjParams.scale
  cases q.scaleFactor with
  | zero => rfl
  | succ n => rw [if_neg (by omega), if_neg (Nat.succ_ne_zero n)]

theorem load_projector_iff {q : ProjParams} {single : Bool} {g : OutFile ProjField} (hw : ProjWritten q single g)
    (hsize : g.bytes.length < 2 ^ 63) :
    (∃ c, visionModelLoadProjector g.bytes = some (c, g.places)) ↔ ProjFits q single g := by
  have hlen : g.header.length = 8 := by rw [hw.header]; rfl
  have hp := hw.packed
  simp only [List.mem_cons, List.not_mem_nil, or_false, forall_eq_or_imp, forall_eq] at hp
  obtain ⟨h2, h3, h4, h6⟩ := hp
  have h5 : q.hasBias.toNat < 2 ^ 31 := by cases q.hasBias <;> decide
  have hdr : readProjHeader g.bytes = q.config := by
    have e2 := rd32s_bytes (f := g) (i := 2) (by omega) (by rw [hw.header]; rfl) h2
    have e3 := rd32s_bytes (f := g) (i := 3) (by omega) (by rw [hw.header]; rfl) h3
    have e4 := rd32s_bytes (f := g) (i := 4) (by omega) (by rw [hw.header]; rfl) h4
    have e5 := rd32s_bytes (f := g) (i := 5) (by omega) (by rw [hw.header]; rfl) h5
    have e6 := rd32s_bytes (f := g) (i := 6) (by omega) (by rw [hw.header]; rfl) h6
    have hb : ((q.hasBias.toNat : Int) != 0) = q.hasBias := by cases q.hasBias <;> rfl
    unfold readProjHeader ProjParams.config
    rw [e2, e3, e4, e5, e6]
    simp only [hb, scale_natCast]
  have hmagic : rd32 g.bytes 0 = 0x4A4F5250 := by
    have h0 := rd32_bytes g (i := 0) (by omega)
    rw [hw.header] at h0
    simpa using h0
  have hlong : ¬ g.bytes.length < 64 := by rw [length_bytes g hlen]; omega
  have hload : (∃ c, visionModelLoadProjector g.bytes = some (c, g.places)) ↔
      projHeaderOk q.config ∧ projSteps q.config = some g.lengths := by
    unfold visionModelLoadProjector
    rw [if_neg hlong, if_neg (not_not.2 hmagic)]
    dsimp only
    rw [hdr]
    split_ifs with hok
    · simp only [hok, true_and, Option.bind_eq_bind, Option.pure_def]
      cases hs : projSteps q.config with
      | none => simp
      | some steps =>
        rw [Option.some.injEq, ← readItems_places g hlen hsize]
        simp only [Option.bind_some, Option.bind_eq_some_iff, Prod.exists, Option.some.injEq, Prod.mk.injEq]
        constructor
        · rintro ⟨c, ms, e, hr, -, rfl⟩
          exact ⟨e, hr⟩
        · rintro ⟨e, hr⟩
          exact ⟨q.config, _, e, hr, rfl, rfl⟩
    · simp [hok]
  have hok : projHeaderOk q.config ↔ 1 ≤ q.visionDim ∧ 1 ≤ q.llmDim := by
    unfold projHeaderOk ProjParams.config
    simp only [Bool.not_eq_true', Bool.or_eq_false_iff, decide_eq_false_iff_not]
    omega
  rw [hload, hok]
  -- the fields of the steps tell the mode that the loader has taken
  have hmode : ∀ s, (projFields s q.hasBias).map (fun x => (x, projLength q x)) = g.lengths → single = s := by
    intro s hs
    have hf := congrArg (List.map Prod.fst) hs
    unfold OutFile.lengths at hf
    rw [List.map_map, List.map_map] at hf
    refine projFields_inj (b := q.hasBias) ?_
    rw [← hw.fields]
    simpa [Function.comp_def] using hf.symm
  constructor
  · rintro ⟨⟨hv, hl⟩, hs⟩
    by_cases h0 : q.hiddenDim = 0
    · rw [projSteps_single h3 h0 hv] at hs
      split_ifs at hs with hsh
      obtain rfl := hmode true (Option.some.inj hs)
      exact ⟨hv, hl, by simp [h0], fun _ => hsh, (lengths_eq_iff hw.fields _).1 (Option.some.inj hs)⟩
    · rw [projSteps_two h2 h3 h4 h0] at hs
      obtain rfl := hmode false (Option.some.inj hs)
      exact ⟨hv, hl, by simp [h0], fun h => absurd h h0, (lengths_eq_iff hw.fields _).1 (Option.some.inj hs)⟩
  · rintro ⟨hv, hl, hm, hsh, hlens⟩
    refine ⟨⟨hv, hl⟩, ?_⟩
    by_cases h0 : q.hiddenDim = 0
    · obtain rfl := hm.2 h0
      rw [projSteps_single h3 h0 hv, if_pos (hsh h0), (lengths_eq_iff hw.fields _).2 hlens]
    · obtain rfl : single = false := by
        cases single with
        | false => rfl
        | true => exact absurd (hm.1 rfl) h0
      rw [projSteps_two h2 h3 h4 h0, (lengths_eq_iff hw.fields _).2 hlens]

/-! ## The feed-forward block -/

section

variable {R : Type} [Semiring R] (silu : R → R) (val : UInt32 → R)

/-- `float_matmul` without bias: row `i` of `w` times `x`. -/
def floatMatmul (x w : Nat → R) (inDim i : Nat) : R := ∑ j ∈ Finset.range inDim, x j * w (i * inDim + j)

/-- `vision_ffn` for one patch. -/
def visionFfn (w1 w3 w2 : Nat → R) (embedDim hiddenDim : Nat) (x : Nat → R) : Nat → R :=
  let gate := fun d => silu (floatMatmul x w1 embedDim d) * floatMatmul x w3 embedDim d
  floatMatmul gate w2 hiddenDim

/-- The ungated block of the checkpoint, `fc2` of `silu` of `fc1`. -/
def mlp (fc1 fc2 : Nat → R) (embedDim hiddenDim : Nat) (x : Nat → R) : Nat → R :=
  floatMatmul (fun d => silu (floatMatmul x fc1 embedDim d)) fc2 hiddenDim

/-- The floats at a pointer. -/
def floatsAt (file : List UInt8) (ptr i : Nat) : R := val (UInt32.ofNat (rd32 file (ptr + 4 * i)))

/-- The numbers of an array. -/
def numbers (d : List UInt32) (i : Nat) : R := val (d.getD i 0)

/-- With zeros in the place of `w3` the block gives zero. -/
theorem visionFfn_zero {w1 w3 w2 : Nat → R} {embedDim hiddenDim : Nat} (x : Nat → R)
    (h3 : ∀ k < hiddenDim * embedDim, w3 k = 0) (i : Nat) : visionFfn silu w1 w3 w2 embedDim hiddenDim x i = 0 := by
  unfold visionFfn
  refine Finset.sum_eq_zero fun d hd => ?_
  have hd := Finset.mem_range.1 hd
  have hup : floatMatmul x w3 embedDim d = 0 := by
    refine Finset.sum_eq_zero fun j hj => ?_
    have hj := Finset.mem_range.1 hj
    have hlt : d * embedDim + j < hiddenDim * embedDim := by
      calc d * embedDim + j < d * embedDim + embedDim := Nat.add_lt_add_left hj _
        _ = (d + 1) * embedDim := (Nat.succ_mul d embedDim).symm
        _ ≤ hiddenDim * embedDim := Nat.mul_le_mul_right _ hd
    rw [h3 _ hlt, mul_zero]
  show silu _ * floatMatmul x w3 embedDim d * _ = 0
  rw [hup, mul_zero, zero_mul]

variable (p : VisionParams) (f : OutFile Field)

/-- What the encoder computes from the mapped `w1`, `w2` and `w3` of a layer is the ungated block of the
arrays written for `w1` and `w2`. -/
def FfnAgrees (c : VisionConfig) : Prop :=
  ∀ l, ∀ m1 ∈ f.places, ∀ m2 ∈ f.places, ∀ m3 ∈ f.places, m1.field = .w1 l → m2.field = .w2 l → m3.field = .w3 l →
    ∀ fc1 fc2, (Field.w1 l, fc1) ∈ f.written → (Field.w2 l, fc2) ∈ f.written → ∀ x, ∀ i < c.embedDim.toNat,
      visionFfn silu (floatsAt val f.bytes m1.offset) (floatsAt val f.bytes m3.offset) (floatsAt val f.bytes m2.offset)
          c.embedDim.toNat c.hiddenDim.toNat x i =
        mlp silu (numbers val fc1) (numbers val fc2) c.embedDim.toNat c.hiddenDim.toNat x i

/-- The ungated block of every layer is zero everywhere. -/
def MlpVanishes : Prop :=
  ∀ l fc1 fc2, (Field.w1 l, fc1) ∈ f.written → (Field.w2 l, fc2) ∈ f.written → ∀ x, ∀ i < p.embedDim,
    mlp silu (numbers val fc1) (numbers val fc2) p.embedDim p.hiddenDim x i = 0

/-- A checkpoint's files agree with the engine: both are loaded with every pointer at the array written
for it and with its length, and the feed-forward blocks are those of the checkpoint. -/
def Agreement (g : OutFile ProjField) : Prop :=
  (∃ c, visionModelLoadEncoder f.bytes = some (c, f.places) ∧ FfnAgrees silu val f c) ∧
    ∃ c, visionModelLoadProjector g.bytes = some (c, g.places)

variable {p f silu val}

theorem places_field {x : Field} (h : x ∈ f.written.map Prod.fst) : ∃ m ∈ f.places, m.field = x := by
  obtain ⟨w, hw, rfl⟩ := List.mem_map.1 h
  obtain ⟨q, hq⟩ := itemsAt_mem (fun p : Field × List UInt32 => words p.2)
    (fun q p => (⟨p.1, q, p.2.length⟩ : Mapped Field)) (p := 64) hw
  exact ⟨_, hq, rfl⟩

theorem mem_visionFields {n l : Nat} (h : Field.w1 l ∈ visionFields n) : Field.w2 l ∈ visionFields n ∧ Field.w3 l ∈ visionFields n := by
  simp only [visionFields, layerFields, List.mem_append, List.mem_cons, List.mem_flatMap, List.not_mem_nil, or_false,
    reduceCtorEq, false_or, Field.w1.injEq, exists_eq_right', Field.w2.injEq, Field.w3.injEq] at h ⊢
  exact ⟨h, h⟩

theorem ffnAgrees_iff (hval : val 0 = 0) {patches : Nat} (hw : VisionWritten p patches f) :
    FfnAgrees silu val f (p.config patches) ↔ MlpVanishes silu val p f := by
  have hlen : f.header.length = 8 := by rw [hw.header]; rfl
  have hzero : ∀ l, ∀ m3 ∈ f.places, m3.field = .w3 l → ∀ (w1 w2 x : Nat → R) (i : Nat),
      visionFfn silu w1 (floatsAt val f.bytes m3.offset) w2 p.embedDim p.hiddenDim x i = 0 := by
    intro l m3 hm3 h3 w1 w2 x i
    obtain ⟨d, hd, -, hword⟩ := rd32_places f hlen hm3
    rw [h3] at hd
    obtain rfl := hw.w3 l d hd
    refine visionFfn_zero silu x (fun k hk => ?_) i
    unfold floatsAt
    rw [hword k (by simpa [zeros] using hk)]
    have hk0 : (zeros (p.hiddenDim * p.embedDim)).getD k 0 = 0 := by
      unfold zeros
      rw [List.getD_eq_getElem?_getD, List.getElem?_replicate]
      split <;> rfl
    rw [hk0]
    exact hval
  constructor
  · intro h l fc1 fc2 h1 h2 x i hi
    have hf1 : Field.w1 l ∈ f.written.map Prod.fst := List.mem_map_of_mem (f := Prod.fst) h1
    rw [hw.fields] at hf1
    obtain ⟨hf2, hf3⟩ := mem_visionFields hf1
    rw [← hw.fields] at hf1 hf2 hf3
    obtain ⟨m1, hm1, e1⟩ := places_field hf1
    obtain ⟨m2, hm2, e2⟩ := places_field hf2
    obtain ⟨m3, hm3, e3⟩ := places_field hf3
    have hffn := h l m1 hm1 m2 hm2 m3 hm3 e1 e2 e3 fc1 fc2 h1 h2 x i hi
    exact hffn.symm.trans (hzero l m3 hm3 e3 _ _ x i)
  · intro h l m1 hm1 m2 hm2 m3 hm3 e1 e2 e3 fc1 fc2 h1 h2 x i hi
    exact (hzero l m3 hm3 e3 _ _ x i).trans (h l fc1 fc2 h1 h2 x i hi).symm

theorem agreement_iff_fits (hval : val 0 = 0) {patches : Nat} (hw : VisionWritten p patches f) {g : OutFile ProjField}
    {q : ProjParams} {single : Bool} (hq : ProjWritten q single g) (hsize : f.bytes.length < 2 ^ 63)
    (hsize' : g.bytes.length < 2 ^ 63) :
    Agreement silu val f g ↔ VisionFits p patches f ∧ ProjFits q single g ∧ MlpVanishes silu val p f := by
  unfold Agreement
  rw [load_projector_iff hq hsize']
  constructor
  · rintro ⟨⟨c, hc, hffn⟩, hproj⟩
    obtain ⟨rfl, hfits⟩ := (load_encoder_iff hw hsize c).1 hc
    exact ⟨hfits, hproj, (ffnAgrees_iff hval hw).1 hffn⟩
  · rintro ⟨hfits, hproj, hmlp⟩
    exact ⟨⟨_, (load_encoder_iff hw hsize _).2 ⟨rfl, hfits⟩, (ffnAgrees_iff hval hw).2 hmlp⟩, hproj⟩

end

/-- The files that an adapter writes agree with the engine exactly when their arrays have the lengths of
their headers, and the blocks of the encoder are zero to begin with. -/
theorem extract_agrees_iff {R : Type} [Semiring R] {silu : R → R} {val : UInt32 → R} (hval : val 0 = 0) {cfg : HfConfig}
    {t : Tensors} {a : Adapter} {f : OutFile Field} {g : OutFile ProjField} (hf : writeVisionWeights cfg t a = some f)
    (hg : writeProjWeights cfg t a = some g) (hsize : f.bytes.length < 2 ^ 63) (hsize' : g.bytes.length < 2 ^ 63) :
    Agreement silu val f g ↔ VisionFits (visionConfig cfg a) (numPatches (visionConfig cfg a) a) f ∧
      (∃ q single, ProjWritten q single g ∧ ProjFits q single g) ∧ MlpVanishes silu val (visionConfig cfg a) f := by
  have hw := writeVisionWeights_spec hf
  obtain ⟨q, single, hq⟩ := writeProjWeights_spec hg
  constructor
  · intro h
    obtain ⟨hfits, hproj, hmlp⟩ := (agreement_iff_fits hval hw hq hsize hsize').1 h
    exact ⟨hfits, ⟨q, single, hq, hproj⟩, hmlp⟩
  · rintro ⟨hfits, ⟨q', single', hq', hproj⟩, hmlp⟩
    exact (agreement_iff_fits hval hw hq' hsize hsize').2 ⟨hfits, hproj, hmlp⟩

theorem length_zeros (n : Nat) : (zeros n).length = n := List.length_replicate

/-- Every tensor is the one word `w`, but for the patch embedding and the second matrix of the block, and there are no
position embeddings. -/
def sampleTensors (w fc2 : UInt32) : Tensors := fun name =>
  if name = "vision_encoder.patch_emb.weight" then some ⟨[1, 442368], zeros 442368, by rw [length_zeros]; rfl⟩
  else if name = "vision_encoder.pos_emb" then none
  else if name = "vision_encoder.encoder.layers.0.mlp.fc2.weight" then some ⟨[1, 1], [fc2], rfl⟩
  else some ⟨[1, 1], [w], rfl⟩

def sampleHfConfig : HfConfig where
  top := fun _ => some 1
  visionConfig := some fun name => if name = "patch_size" then some 384 else some 1
  textConfig := none

def sampleVision (w fc2 : UInt32) : OutFile Field :=
  ⟨[0x57535956, 1, 1, 1, 1, 1, 442368, 1], [(.patchProjW, zeros 442368), (.patchProjB, [w]), (.posEmbed, zeros 1),
   (.rmsFinal, [w]), (.rmsAtt 0, [w]), (.rmsFfn 0, [w]), (.wq 0, [w]), (.wk 0, [w]), (.wv 0, [w]), (.wo 0, [w]),
   (.w1 0, [w]), (.w2 0, [fc2]), (.w3 0, zeros 1)]⟩

theorem writeVisionWeights_sample (w fc2 : UInt32) :
    writeVisionWeights sampleHfConfig (sampleTensors w fc2) .moondream2 = some (sampleVision w fc2) := by
  have hreshape : ∀ t : Tensor, t.data = zeros 442368 → reshape t 442368 = some (zeros 442368) := by
    intro t ht
    unfold reshape
    rw [ht, length_zeros, if_pos rfl]
  unfold writeVisionWeights
  simp only [Option.bind_eq_bind, Option.bind_eq_some_iff, Option.pure_def, Option.guard_eq_some']
  exact ⟨(), by decide, (), by decide, _, rfl, _, hreshape _ rfl, _, rfl, _, rfl, [_], rfl, rfl⟩

def sampleProj (w : UInt32) : OutFile ProjField :=
  ⟨[0x4A4F5250, 1, 1, 1, 1, 1, 1, 0], [(.wDown, [w]), (.biasDown, [w]), (.wUp, [w]), (.biasUp, [w])]⟩

theorem writeProjWeights_sample (w fc2 : UInt32) :
    writeProjWeights sampleHfConfig (sampleTensors w fc2) .moondream2 = some (sampleProj w) := rfl

theorem length_sampleVision (w fc2 : UInt32) : (sampleVision w fc2).bytes.length < 2 ^ 63 := by
  rw [length_bytes _ rfl]
  simp only [sampleVision, List.flatMap_cons, List.flatMap_nil, List.length_append, length_words, length_zeros,
    List.length_cons, List.length_nil]
  decide

theorem length_sampleProj (w : UInt32) : (sampleProj w).bytes.length < 2 ^ 63 := by
  rw [length_bytes _ rfl]
  simp only [sampleProj, List.flatMap_cons, List.flatMap_nil, List.length_append, length_words, List.length_cons,
    List.length_nil]
  decide

theorem visionFits_sample (w fc2 : UInt32) :
    VisionFits (visionConfig sampleHfConfig .moondream2) (numPatches (visionConfig sampleHfConfig .moondream2) .moondream2)
      (sampleVision w fc2) := by
  constructor
  case lengths =>
    simp only [sampleVision, List.mem_cons, List.not_mem_nil, or_false, forall_eq_or_imp, forall_eq, length_zeros,
      List.length_cons, List.length_nil]
    decide
  all_goals decide

theorem projWritten_sample (w : UInt32) : ProjWritten ⟨1, 1, 1, true, 1⟩ false (sampleProj w) := by
  constructor
  · decide
  · rfl
  · rfl

theorem projFits_sample (w : UInt32) : ProjFits ⟨1, 1, 1, true, 1⟩ false (sampleProj w) := by
  constructor
  case lengths =>
    simp only [sampleProj, List.mem_cons, List.not_mem_nil, or_false, forall_eq_or_imp, forall_eq, List.length_cons,
      List.length_nil]
    decide
  all_goals decide

noncomputable def siluReal (x : ℝ) : ℝ := x / (1 + Real.exp (-x))

/-- The numbers 0.0 and 1.0. -/
noncomputable def sampleVal (w : UInt32) : ℝ := if w = 0x3F800000 then 1 else 0

/-- A checkpoint of ones is laid out as the loader expects, and still its block is lost. -/
theorem ones_disagree :
    writeVisionWeights sampleHfConfig (sampleTensors 0x3F800000 0x3F800000) .moondream2 = some (sampleVision 0x3F800000 0x3F800000) ∧
      writeProjWeights sampleHfConfig (sampleTensors 0x3F800000 0x3F800000) .moondream2 = some (sampleProj 0x3F800000) ∧
      VisionFits (visionConfig sampleHfConfig .moondream2)
        (numPatches (visionConfig sampleHfConfig .moondream2) .moondream2) (sampleVision 0x3F800000 0x3F800000) ∧
      ¬ Agreement siluReal sampleVal (sampleVision 0x3F800000 0x3F800000) (sampleProj 0x3F800000) := by
  have hf := writeVisionWeights_sample 0x3F800000 0x3F800000
  refine ⟨hf, writeProjWeights_sample _ _, visionFits_sample _ _, fun h => ?_⟩
  have hval : sampleVal 0 = 0 := if_neg (by decide)
  have hone : sampleVal 0x3F800000 = 1 := if_pos rfl
  obtain ⟨-, -, hmlp⟩ := (agreement_iff_fits hval (writeVisionWeights_spec hf) (projWritten_sample _)
    (length_sampleVision _ _) (length_sampleProj _)).1 h
  have hzero := hmlp 0 [0x3F800000] [0x3F800000] (by simp [sampleVision]) (by simp [sampleVision]) (fun _ => 1) 0 (by decide)
  have hdims : (visionConfig sampleHfConfig .moondream2).embedDim = 1 ∧
      (visionConfig sampleHfConfig .moondream2).hiddenDim = 1 := ⟨rfl, rfl⟩
  rw [hdims.1, hdims.2] at hzero
  simp [mlp, floatMatmul, numbers, hone, siluReal] at hzero
  have := Real.exp_pos (-1)
  linarith

/-- A checkpoint of ones agrees if the second matrix of its block is zero. -/
theorem extract_agrees_iff_fc2_zero :
    Agreement siluReal sampleVal (sampleVision 0x3F800000 0) (sampleProj 0x3F800000) := by
  have hval : sampleVal 0 = 0 := if_neg (by decide)
  refine (extract_agrees_iff hval (writeVisionWeights_sample 0x3F800000 0) (writeProjWeights_sample 0x3F800000 0)
    (length_sampleVision _ _) (length_sampleProj _)).2
    ⟨visionFits_sample 0x3F800000 0, ⟨_, _, projWritten_sample 0x3F800000, projFits_sample 0x3F800000⟩, ?_⟩
  intro l fc1 fc2 h1 h2 x i hi
  simp only [sampleVision, List.mem_cons, Prod.mk.injEq, reduceCtorEq, false_and, false_or, List.not_mem_nil, or_false,
    Field.w2.injEq] at h2
  obtain ⟨-, rfl⟩ := h2
  unfold mlp floatMatmul
  refine Finset.sum_eq_zero fun d _ => ?_
  have hnum : numbers sampleVal [0] (i * (visionConfig sampleHfConfig .moondream2).hiddenDim + d) = 0 := by
    unfold numbers
    cases i * (visionConfig sampleHfConfig .moondream2).hiddenDim + d <;> exact hval
  rw [hnum, mul_zero]

end BitForge.Vision
