/-
Decoding with the caches against decoding without them. A layer is a function of the whole sequence
of activations that enter it; the passes over the positions `0, 1, ..`, each with one activation and
the caches, give the values of that function, as long as the positions of a window keep their slots.
-/
import BitForge.Kv.Faithful
import BitForge.Transformer.Forward

namespace BitForge.Transformer

open BitForge.Lib BitForge.Kv

/-! ## The layers on a sequence -/

/-- The numbers of cells that a family keeps of a position. -/
def kvWidths (g : KvGeometry) (fam : AttnFamily) : List Nat :=
  match fam with
  | .generic | .q35 | .qwen3moe => (List.range g.nKvHeads).flatMap fun _ => [g.headDim, g.headDim]
  | .mla nope rope vDim => ((List.range g.nKvHeads).flatMap fun _ => [nope, vDim]) ++ [rope]

/-- What a family keeps of a position: its key and value buffers. -/
def kvEntry {F : Type} (g : KvGeometry) (fam : AttnFamily) (buf : Nat → Nat → F) : List (List F) :=
  (kvWidths g fam).mapIdx fun i n => (List.range n).map (buf i)

/-- The positions that the pass of `pos` attends to: the last `W` up to its own. -/
def attended (W : Int) (pos : Nat) : List Nat := (List.range (pos + 1)).drop (pos + 1 - W.toNat)

section

variable {F X L C R : Type} (K : Kernels F X L C R) (cfg : Config) (mc : Option MoEConfig) (W : Int)

/-- The state of a linear-attention layer before the position `pos` of the sequence `xs`. -/
def linearStates (layer : Nat) (start : C × R) (xs : Nat → X) : Nat → C × R
  | 0 => start
  | pos + 1 =>
    let st := linearStates layer start xs pos
    (K.linearAttn layer (xs pos) st.1 st.2).2

/-- The attention of a layer at the position `pos` of the sequence `xs`. -/
def sequenceAttention (layer : Nat) (start : C × R) (xs : Nat → X) (pos : Nat) : X :=
  match attnFamily mc layer with
  | some fam =>
    K.attend fam layer pos (xs pos)
      ((attended W pos).map fun L : Nat => kvEntry (kvGeometry cfg mc W fam) fam (K.project fam layer L (xs L)))
  | none =>
    let st := linearStates K layer start xs pos
    (K.linearAttn layer (xs pos) st.1 st.2).1

/-- The activations that enter the layer `n` when the sequence `e` enters the first. -/
def sequenceActivations (start : Nat → C × R) (e : Nat → X) : Nat → Nat → X
  | 0 => e
  | n + 1 => fun pos => ffnStep K cfg mc n (sequenceAttention K cfg mc W n (start n) (sequenceActivations start e n) pos)

/-- The activation of a position behind the final norm. -/
def sequenceOutput (start : Nat → C × R) (e : Nat → X) (pos : Nat) : X :=
  K.finalNorm (sequenceActivations K cfg mc W start e cfg.nLayers pos)

end

/-! ## What is kept of a position -/

theorem kvWidths_regions (g : KvGeometry) (fam : AttnFamily) (layer : Nat) (slot : Int) :
    (kvRegions g fam layer slot).map Region.len = kvWidths g fam := by
  cases fam <;> simp [kvRegions, kvWidths, List.map_flatMap]

theorem buffers_kvRegions {F : Type} (g : KvGeometry) (fam : AttnFamily) (layer : Nat) (slot : Int) (buf : Nat → Nat → F) :
    Mem.buffers (kvRegions g fam layer slot) buf = kvEntry g fam buf := by
  unfold Mem.buffers kvEntry
  rw [← kvWidths_regions g fam layer slot]
  exact List.ext_getElem (by simp) fun i h _ => by simp

/-! ## The window -/

/-- The slots of the positions up to `pos` are slots of the cache, and those of one history are apart. -/
structure WindowOk (W spl : Int) (pos : Nat) : Prop where
  range : ∀ L : Nat, L ≤ pos → 0 ≤ swMapPosition (swInit W spl) L ∧ swMapPosition (swInit W spl) L < W
  apart : SlotsApart W spl pos

/-- A position below the window is its own slot, pinned or not. -/
theorem swMapPosition_below {W spl L : Int} (hL : L < W) : swMapPosition (swInit W spl) L = L := by
  unfold swMapPosition
  dsimp only [swInit]
  split_ifs with hp hc
  · rfl
  · omega
  · rw [Int.tmod_eq_of_lt (by omega) (by omega)]
    omega

theorem windowOk {W spl : Int} {pos : Nat} (h : pos < W ∨ (spl = 0 ∧ 0 < W)) : WindowOk W spl pos := by
  rcases h with h | ⟨rfl, hW⟩
  · constructor
    · intro L hL
      rw [swMapPosition_below (by omega)]
      omega
    · intro L L' hL hlt hle _
      rw [swMapPosition_below (by omega), swMapPosition_below (by omega)]
      omega
  · exact ⟨fun L _ => swMapPosition_range le_rfl hW (Int.natCast_nonneg L), slotsApart hW (.inl rfl)⟩

theorem WindowOk.mono {W spl : Int} {pos q : Nat} (h : WindowOk W spl pos) (hq : q ≤ pos) : WindowOk W spl q :=
  ⟨fun L hL => h.range L (by omega), fun L L' hL hlt hle => h.apart L L' hL hlt (by omega)⟩

/-- The history loops run over the attended positions, in their order. -/
theorem attended_eq {W : Int} (hW : 0 ≤ W) (spl : Int) (pos : Nat) :
    (List.range (swValidCount (swInit W spl) pos).toNat).map (fun t : Nat => (histLogical (swInit W spl) pos t).toNat) =
      attended W pos := by
  unfold attended
  apply List.ext_getElem
  · simp only [List.length_map, List.length_range, List.length_drop]
    unfold swValidCount
    dsimp only [swInit]
    split_ifs <;> omega
  · intro t ht _
    simp only [List.length_map, List.length_range] at ht
    rw [List.getElem_map, List.getElem_range, List.getElem_drop, List.getElem_range, histLogical_eq]
    split_ifs <;> omega

theorem mem_attended {W : Int} {pos L : Nat} : L ∈ attended W pos ↔ L ≤ pos ∧ pos < L + W.toNat := by
  unfold attended
  rw [List.mem_drop_iff_getElem]
  simp only [List.getElem_range, List.length_range]
  constructor
  · rintro ⟨i, hi, rfl⟩
    omega
  · intro h
    exact ⟨L - (pos + 1 - W.toNat), by omega, by omega⟩

/-! ## What a pass preserves -/

section

variable {F X L C R : Type} (K : Kernels F X L C R) (cfg : Config) (mc : Option MoEConfig)

/-- The state within the pass of `pos` over the sequence `e`, after its first `k` layers: the caches
hold what the layers keep of the last positions, the linear layers have taken in all of them. -/
structure Decoded (W spl : Int) (start : Nat → C × R) (e : Nat → X) (pos k : Nat) (s : RunState F X L C R) : Prop where
  maxSeqLen : s.maxSeqLen = W
  sizes : SameSizes (swInit W spl) s.kv.sw
  entries : ∀ layer < cfg.nLayers, ∀ fam, attnFamily mc layer = some fam →
    ∀ L : Nat, L < pos ∨ (L = pos ∧ layer < k) → (pos : Int) < L + W →
      s.kv.mem.slices (kvRegions (kvGeometry cfg mc W fam) fam layer (swMapPosition (swInit W spl) L)) =
        kvEntry (kvGeometry cfg mc W fam) fam
          (K.project fam layer L (sequenceActivations K cfg mc W start e layer L))
  linear : ∀ layer < cfg.nLayers, attnFamily mc layer = none →
    (s.q35ConvState layer, s.q35RecurState layer) =
      linearStates K layer (start layer) (sequenceActivations K cfg mc W start e layer) (if layer < k then pos + 1 else pos)

/-- The layers with a growing cache are of one family. -/
theorem attnFamily_unique {mc : Option MoEConfig} {layer layer' : Nat} {fam fam' : AttnFamily}
    (h : attnFamily mc layer = some fam) (h' : attnFamily mc layer' = some fam') : fam' = fam := by
  unfold attnFamily at h h'
  cases mc with
  | none => exact (Option.some.inj h').symm.trans (Option.some.inj h)
  | some mc =>
    dsimp only at h h'
    split_ifs at h h' <;> simp_all

variable {K cfg mc} {W spl : Int} {start : Nat → C × R} {e : Nat → X} {pos k : Nat} {s : RunState F X L C R}

/-- A store keeps the entries of the other layers and of the other positions of the window. -/
theorem Decoded.store {fam : AttnFamily} (hfits : CacheFits cfg mc) (hwin : WindowOk W spl pos)
    (h : Decoded K cfg mc W spl start e pos k s) (hfam : attnFamily mc k = some fam)
    (hx : s.x = sequenceActivations K cfg mc W start e k pos) (x : X) :
    Decoded K cfg mc W spl start e pos (k + 1)
      { s with
        kv := kvStore (kvGeometry cfg mc W fam) fam s.kv k pos (K.project fam k pos s.x)
        x := x } where
  maxSeqLen := h.maxSeqLen
  sizes := h.sizes.advance
  entries := by
    intro layer hl fam' hfam' L hlt hnear
    cases attnFamily_unique hfam hfam'
    have hf : fam.Fits (kvGeometry cfg mc W fam) := hfits.fits hfam W
    have hpos := hwin.range pos le_rfl
    have hslot := hwin.range L (by omega)
    dsimp only [kvStore]
    rw [h.sizes.map]
    by_cases hself : L = pos ∧ layer = k
    · obtain ⟨rfl, rfl⟩ := hself
      rw [Mem.slices_copyAll_self _ _ _ (kvRegions_pairwise hslot.1 hslot.2 hf _), buffers_kvRegions, hx]
    · have hne : k ≠ layer ∨ swMapPosition (swInit W spl) pos ≠ swMapPosition (swInit W spl) L := by
        by_cases hk : k = layer
        · exact .inr (hwin.apart L pos (Int.natCast_nonneg L) (by omega) le_rfl hnear).symm
        · exact .inl hk
      rw [Mem.slices_copyAll_disj _ _ _ _ (kvRegions_disj hf hpos.1 hpos.2 hslot.1 hslot.2 hne)]
      exact h.entries layer hl fam hfam' L (by omega) hnear
  linear := by
    intro layer hl hnone
    have hne : layer ≠ k := by
      rintro rfl
      rw [hfam] at hnone
      cases hnone
    rw [h.linear layer hl hnone]
    congr 1
    split_ifs <;> omega

/-- The history loops read what the layer keeps of the attended positions. -/
theorem Decoded.reads {fam : AttnFamily} (h : Decoded K cfg mc W spl start e pos (k + 1) s) (hk : k < cfg.nLayers)
    (hfam : attnFamily mc k = some fam) (hW : 0 ≤ W) :
    kvReads (kvGeometry cfg mc W fam) fam s.kv k pos =
      (attended W pos).map fun L : Nat => kvEntry (kvGeometry cfg mc W fam) fam
        (K.project fam k L (sequenceActivations K cfg mc W start e k L)) := by
  unfold kvReads
  rw [← attended_eq hW spl, h.sizes.count, List.map_map]
  apply List.map_congr_left
  intro t ht
  have ht' := List.mem_range.1 ht
  obtain ⟨hL, hnear, hle⟩ : 0 ≤ histLogical (swInit W spl) pos t ∧ pos - W < histLogical (swInit W spl) pos t ∧
      histLogical (swInit W spl) pos t ≤ pos := histLogical_range (by omega) (by omega)
  obtain ⟨L, hLeq⟩ := Int.eq_ofNat_of_zero_le hL
  unfold kvRead
  dsimp only [Function.comp]
  rw [h.sizes.hist, h.sizes.map, hLeq, Int.toNat_natCast]
  exact h.entries k hk fam hfam L (by omega) (by omega)

/-- A linear layer takes in one position. -/
theorem Decoded.advanceLinear (h : Decoded K cfg mc W spl start e pos k s) (hk : k < cfg.nLayers)
    (hnone : attnFamily mc k = none) (hx : s.x = sequenceActivations K cfg mc W start e k pos) (x : X) :
    Decoded K cfg mc W spl start e pos (k + 1)
      { s with
        x := x
        q35ConvState := Function.update s.q35ConvState k
          (K.linearAttn k s.x (s.q35ConvState k) (s.q35RecurState k)).2.1
        q35RecurState := Function.update s.q35RecurState k
          (K.linearAttn k s.x (s.q35ConvState k) (s.q35RecurState k)).2.2 } where
  maxSeqLen := h.maxSeqLen
  sizes := h.sizes
  entries := by
    intro layer hl fam hfam L hlt hnear
    have hne : layer ≠ k := by
      rintro rfl
      rw [hnone] at hfam
      cases hfam
    exact h.entries layer hl fam hfam L (by omega) hnear
  linear := by
    intro layer hl hnone'
    by_cases hself : layer = k
    · subst hself
      have hst := h.linear layer hl hnone
      rw [if_neg (lt_irrefl layer)] at hst
      rw [if_pos (Nat.lt_succ_self layer)]
      dsimp only
      rw [Function.update_self, Function.update_self, hx, linearStates, ← hst]
    · dsimp only
      rw [Function.update_of_ne hself, Function.update_of_ne hself, h.linear layer hl hnone']
      congr 1
      split_ifs <;> omega

theorem attentionForward_decoded (hfits : CacheFits cfg mc) (hwin : WindowOk W spl pos) (hk : k < cfg.nLayers)
    (h : Decoded K cfg mc W spl start e pos k s) (hx : s.x = sequenceActivations K cfg mc W start e k pos) :
    Decoded K cfg mc W spl start e pos (k + 1) (attentionForward K cfg mc k pos s) ∧
      (attentionForward K cfg mc k pos s).x =
        sequenceAttention K cfg mc W k (start k) (sequenceActivations K cfg mc W start e k) pos := by
  have hW : 0 ≤ W := by
    have := hwin.range pos le_rfl
    omega
  obtain rfl := h.maxSeqLen
  unfold attentionForward sequenceAttention
  cases hfam : attnFamily mc k with
  | some fam =>
    dsimp only
    have hstored := h.store hfits hwin hfam hx s.x
    refine ⟨h.store hfits hwin hfam hx _, ?_⟩
    rw [← hx, ← hstored.reads hk hfam hW]
  | none =>
    dsimp only
    refine ⟨h.advanceLinear hk hfam hx _, ?_⟩
    have hst := h.linear k hk hfam
    rw [if_neg (lt_irrefl k)] at hst
    rw [← hst, hx]

/-- After `n` layers the activation is that of the layers on the sequence. -/
theorem layersForward_decoded (hfits : CacheFits cfg mc) (hfresh : FfnFresh K cfg mc) (hwin : WindowOk W spl pos)
    (h : Decoded K cfg mc W spl start e pos 0 s) (hx : s.x = e pos) : ∀ n : Nat, n ≤ cfg.nLayers →
    Decoded K cfg mc W spl start e pos n (layersForward K cfg mc pos n s) ∧
      (layersForward K cfg mc pos n s).x = sequenceActivations K cfg mc W start e n pos
  | 0, _ => ⟨h, hx⟩
  | n + 1, hn => by
    obtain ⟨hd, hxn⟩ := layersForward_decoded hfits hfresh hwin h hx n (by omega)
    obtain ⟨hd', hx'⟩ := attentionForward_decoded hfits hwin hn hd hxn
    unfold layersForward sequenceActivations
    refine ⟨?_, ?_⟩
    · rw [ffnForward_eq]
      exact ⟨hd'.maxSeqLen, hd'.sizes, hd'.entries, hd'.linear⟩
    · rw [ffnForward_x hfresh hn, hx']

/-- After its last layer a pass has become history. -/
theorem Decoded.next (h : Decoded K cfg mc W spl start e pos cfg.nLayers s) :
    Decoded K cfg mc W spl start e (pos + 1) 0 s where
  maxSeqLen := h.maxSeqLen
  sizes := h.sizes
  entries layer hl fam hfam L hlt hnear := h.entries layer hl fam hfam L (by omega) (by omega)
  linear layer hl hnone := by
    rw [h.linear layer hl hnone, if_pos hl, if_neg (Nat.not_lt_zero _)]

/-- The activation with which a pass starts. -/
def passInput (K : Kernels F X L C R) (token : Int) (s : RunState F X L C R) : X :=
  if 0 ≤ token then K.embedToken token else s.x

/-- A pass over the activation `e pos` gives the logits of the sequence, and extends the history. -/
theorem transformerForward_decoded (hfits : CacheFits cfg mc) (hfresh : FfnFresh K cfg mc) (hwin : WindowOk W spl pos)
    (h : Decoded K cfg mc W spl start e pos 0 s) {token : Int}
    (htok : 0 ≤ token → token < cfg.vocabSize) (he : passInput K token s = e pos) :
    Decoded K cfg mc W spl start e (pos + 1) 0 (transformerForward K cfg mc token pos s) ∧
      (transformerForward K cfg mc token pos s).x = sequenceOutput K cfg mc W start e pos ∧
      (transformerForward K cfg mc token pos s).logits = K.classify (sequenceOutput K cfg mc W start e pos) := by
  have hstart : Decoded K cfg mc W spl start e pos 0 (if 0 ≤ token then { s with x := K.embedToken token } else s) ∧
      (if 0 ≤ token then { s with x := K.embedToken token } else s).x = e pos := by
    rw [← he]
    unfold passInput
    split_ifs
    · exact ⟨⟨h.maxSeqLen, h.sizes, h.entries, h.linear⟩, rfl⟩
    · exact ⟨h, rfl⟩
  obtain ⟨hd, hx⟩ := layersForward_decoded hfits hfresh hwin hstart.1 hstart.2 cfg.nLayers le_rfl
  unfold transformerForward sequenceOutput
  rw [if_neg (by omega)]
  dsimp only
  rw [hx]
  exact ⟨Decoded.next ⟨hd.maxSeqLen, hd.sizes, hd.entries, hd.linear⟩, rfl, rfl⟩

end

/-! ## What the activations depend on -/

section

variable {F X L C R : Type} (K : Kernels F X L C R) (cfg : Config) (mc : Option MoEConfig)

theorem linearStates_congr (layer : Nat) (st : C × R) {xs xs' : Nat → X} : ∀ {pos : Nat}, (∀ L < pos, xs L = xs' L) →
    linearStates K layer st xs pos = linearStates K layer st xs' pos
  | 0, _ => rfl
  | pos + 1, h => by
    unfold linearStates
    rw [linearStates_congr layer st fun L hL => h L (by omega), h pos (Nat.lt_succ_self pos)]

theorem sequenceAttention_congr {W : Int} (layer : Nat) (st : C × R) {xs xs' : Nat → X} {pos : Nat}
    (h : ∀ L ≤ pos, xs L = xs' L) :
    sequenceAttention K cfg mc W layer st xs pos = sequenceAttention K cfg mc W layer st xs' pos := by
  unfold sequenceAttention
  cases attnFamily mc layer with
  | some fam =>
    dsimp only
    rw [h pos le_rfl]
    congr 1
    exact List.map_congr_left fun L hL => by rw [h L (mem_attended.1 hL).1]
  | none =>
    dsimp only
    rw [h pos le_rfl, linearStates_congr K layer st fun L hL => h L hL.le]

/-- The activations of a position depend on the sequence up to it. -/
theorem sequenceActivations_congr {W : Int} (start : Nat → C × R) {e e' : Nat → X} : ∀ (n : Nat) {pos : Nat},
    (∀ L ≤ pos, e L = e' L) →
    sequenceActivations K cfg mc W start e n pos = sequenceActivations K cfg mc W start e' n pos
  | 0, pos, h => h pos le_rfl
  | n + 1, pos, h => by
    unfold sequenceActivations
    rw [sequenceAttention_congr K cfg mc n (start n) fun L hL =>
      sequenceActivations_congr start n fun L' hL' => h L' (hL'.trans hL)]

theorem attended_below {W : Int} {pos : Nat} (h : pos < W) : attended W pos = List.range (pos + 1) := by
  unfold attended
  rw [show pos + 1 - W.toNat = 0 by omega, List.drop_zero]

/-- Below the window the activations do not depend on its size. -/
theorem sequenceActivations_window {W W' : Int} (start : Nat → C × R) (e : Nat → X) : ∀ (n : Nat) {pos : Nat},
    pos < W → pos < W' →
    sequenceActivations K cfg mc W start e n pos = sequenceActivations K cfg mc W' start e n pos
  | 0, _, _, _ => rfl
  | n + 1, pos, h, h' => by
    have ih : ∀ L ≤ pos, sequenceActivations K cfg mc W start e n L = sequenceActivations K cfg mc W' start e n L :=
      fun L hL => sequenceActivations_window start e n (by omega) (by omega)
    unfold sequenceActivations
    rw [sequenceAttention_congr K cfg mc n (start n) ih]
    unfold sequenceAttention
    cases attnFamily mc n with
    | some fam =>
      dsimp only
      rw [attended_below h, attended_below h']
      rfl
    | none => rfl

/-- In `n` layers without a linear one an activation sees `n` windows back. -/
theorem sequenceActivations_receptive {W : Int} (hW : 0 < W) (start start' : Nat → C × R) {e e' : Nat → X} :
    ∀ (n : Nat) {pos : Nat}, (∀ layer < n, attnFamily mc layer ≠ none) →
    (∀ L : Nat, L ≤ pos → pos ≤ L + n * (W.toNat - 1) → e L = e' L) →
    sequenceActivations K cfg mc W start e n pos = sequenceActivations K cfg mc W start' e' n pos
  | 0, pos, _, h => h pos le_rfl (by omega)
  | n + 1, pos, hfull, h => by
    have hnear : ∀ L ≤ pos, pos < L + W.toNat →
        sequenceActivations K cfg mc W start e n L = sequenceActivations K cfg mc W start' e' n L := by
      intro L hL hlt
      apply sequenceActivations_receptive hW start start' n fun layer hl => hfull layer (by omega)
      intro L' hL' hle
      apply h L' (by omega)
      rw [Nat.succ_mul]
      omega
    unfold sequenceActivations sequenceAttention
    cases hfam : attnFamily mc n with
    | none => exact absurd hfam (hfull n (Nat.lt_succ_self n))
    | some fam =>
      dsimp only
      rw [hnear pos le_rfl (by omega)]
      congr 2
      apply List.map_congr_left
      intro L hL
      obtain ⟨hle, hlt⟩ := mem_attended.1 hL
      rw [hnear L hle hlt]

end

/-! ## Runs -/

section

variable {F X L C R : Type} (K : Kernels F X L C R) (cfg : Config) (mc : Option MoEConfig)

/-- The passes over the tokens of the positions `0 .. n - 1`. -/
def forwardRun (tokens : Nat → Int) (s : RunState F X L C R) : Nat → RunState F X L C R
  | 0 => s
  | n + 1 => transformerForward K cfg mc (tokens n) n (forwardRun tokens s n)

/-- The states of the linear layers. -/
def linearStart (s : RunState F X L C R) (layer : Nat) : C × R := (s.q35ConvState layer, s.q35RecurState layer)

variable {K cfg mc}

/-- Before the first pass the caches may hold anything. -/
theorem decoded_zero {W spl : Int} {start : Nat → C × R} {s : RunState F X L C R} (hmax : s.maxSeqLen = W)
    (hsw : SameSizes (swInit W spl) s.kv.sw) (hstart : linearStart s = start) (e : Nat → X) :
    Decoded K cfg mc W spl start e 0 0 s where
  maxSeqLen := hmax
  sizes := hsw
  entries _ _ _ _ L hlt _ := by omega
  linear layer _ _ := congrFun hstart layer

theorem forwardRun_decoded {W spl : Int} {s : RunState F X L C R} {tokens : Nat → Int} (hfits : CacheFits cfg mc)
    (hfresh : FfnFresh K cfg mc) (hmax : s.maxSeqLen = W) (hsw : SameSizes (swInit W spl) s.kv.sw) : ∀ n : Nat,
    (∀ p < n, WindowOk W spl p ∧ 0 ≤ tokens p ∧ tokens p < cfg.vocabSize) →
    Decoded K cfg mc W spl (linearStart s) (fun p => K.embedToken (tokens p)) n 0 (forwardRun K cfg mc tokens s n)
  | 0, _ => decoded_zero hmax hsw rfl _
  | n + 1, h => by
    obtain ⟨hwin, h0, h1⟩ := h n (Nat.lt_succ_self n)
    have hd := forwardRun_decoded hfits hfresh hmax hsw n fun p hp => h p (by omega)
    exact (transformerForward_decoded hfits hfresh hwin hd (fun _ => h1) (if_pos h0)).1

theorem forwardRun_logits {spl : Int} {s : RunState F X L C R} {tokens : Nat → Int} {pos : Nat} (hfits : CacheFits cfg mc)
    (hfresh : FfnFresh K cfg mc) (hsw : s.kv.sw = swInit s.maxSeqLen spl) (hwin : pos < s.maxSeqLen ∨ (spl = 0 ∧ 0 < s.maxSeqLen))
    (htok : ∀ p ≤ pos, 0 ≤ tokens p ∧ tokens p < cfg.vocabSize) :
    (forwardRun K cfg mc tokens s (pos + 1)).logits =
      K.classify (sequenceOutput K cfg mc s.maxSeqLen (linearStart s) (fun p => K.embedToken (tokens p)) pos) := by
  have hok : WindowOk s.maxSeqLen spl pos := windowOk hwin
  have hsizes : SameSizes (swInit s.maxSeqLen spl) s.kv.sw := by
    rw [hsw]
    exact SameSizes.refl _
  have hd := forwardRun_decoded (K := K) hfits hfresh rfl hsizes pos fun p hp => ⟨hok.mono hp.le, htok p hp.le⟩
  exact (transformerForward_decoded hfits hfresh hok hd (fun _ => (htok pos le_rfl).2) (if_pos (htok pos le_rfl).1)).2.2

/-- Decoding token by token with the caches gives the logits of the layers on the whole sequence. -/
theorem forwardRun_eq_sequence (K : Kernels F X L C R) (cfg : Config) (mc : Option MoEConfig) (spl : Int)
    (s : RunState F X L C R) (tokens : Nat → Int) (pos : Nat) (hfits : CacheFits cfg mc)
    (hfresh : FfnFresh K cfg mc) (hsw : s.kv.sw = swInit s.maxSeqLen spl) (hwin : pos < s.maxSeqLen ∨ (spl = 0 ∧ 0 < s.maxSeqLen))
    (htok : ∀ p ≤ pos, 0 ≤ tokens p ∧ tokens p < cfg.vocabSize) :
    (forwardRun K cfg mc tokens s (pos + 1)).logits =
      K.classify (sequenceOutput K cfg mc s.maxSeqLen (linearStart s) (fun p => K.embedToken (tokens p)) pos) :=
  forwardRun_logits hfits hfresh hsw hwin htok

/-- A model without linear layers forgets what lies `n_layers` windows back, whatever its caches held at first. -/
theorem forwardRun_forgets (K : Kernels F X L C R) (cfg : Config) (mc : Option MoEConfig) (s s' : RunState F X L C R)
    (tokens tokens' : Nat → Int) (pos : Nat) (hfits : CacheFits cfg mc) (hfresh : FfnFresh K cfg mc)
    (hfull : ∀ layer < cfg.nLayers, attnFamily mc layer ≠ none)
    (hmax : s'.maxSeqLen = s.maxSeqLen) (hW : 0 < s.maxSeqLen) (hsw : s.kv.sw = swInit s.maxSeqLen 0)
    (hsw' : s'.kv.sw = swInit s'.maxSeqLen 0) (htok : ∀ p ≤ pos, 0 ≤ tokens p ∧ tokens p < cfg.vocabSize)
    (htok' : ∀ p ≤ pos, 0 ≤ tokens' p ∧ tokens' p < cfg.vocabSize)
    (hlast : ∀ p ≤ pos, pos ≤ p + cfg.nLayers * (s.maxSeqLen.toNat - 1) → tokens' p = tokens p) :
    (forwardRun K cfg mc tokens' s' (pos + 1)).logits = (forwardRun K cfg mc tokens s (pos + 1)).logits := by
  rw [forwardRun_logits hfits hfresh hsw (.inr ⟨rfl, hW⟩) htok, forwardRun_logits hfits hfresh hsw' (.inr ⟨rfl, by omega⟩) htok', hmax]
  unfold sequenceOutput
  rw [sequenceActivations_receptive K cfg mc hW (linearStart s') (linearStart s) cfg.nLayers hfull
    fun L hL hle => congrArg K.embedToken (hlast L hL hle)]

end

/-- Kernels on integers in which every read counts: attention adds up what it is given, a linear layer its states. -/
def sumKernels : Kernels Int Int Int Int Int :=
  { embedToken := fun token => token
    project := fun _ layer pos x i _ => (layer + 2) * x + pos + i
    attend := fun _ _ _ x entries => x + (entries.map fun entry => (entry.map List.sum).sum).sum
    linearAttn := fun _ x c r => (x + c + r, x, c + r)
    ffn := fun _ _ x _ => 2 * x
    finalNorm := fun x => x + 1
    classify := fun x => x }

/-- A cache of two slots with nothing pinned, filled with sevens. -/
def twoSlotState : RunState Int Int Int Int Int := ⟨0, 0, ⟨fun _ _ => 7, swInit 2 0⟩, fun _ => 0, fun _ => 0, 0, 2, none⟩

/-- The window has wrapped at position 4. -/
theorem forwardRun_eq_sequence_wrapped :
    (forwardRun sumKernels ⟨1, 2, 1, 1, 9, 8, -1, 1⟩ none (fun p => p + 1) twoSlotState 5).logits =
      sequenceOutput sumKernels ⟨1, 2, 1, 1, 9, 8, -1, 1⟩ none 2 (linearStart twoSlotState) (fun p => (p : Int) + 1) 4 :=
  forwardRun_eq_sequence sumKernels ⟨1, 2, 1, 1, 9, 8, -1, 1⟩ none 0 twoSlotState (fun p => p + 1) 4
    (by rintro layer fam ⟨⟩; trivial) ffnFresh_dense rfl (.inr ⟨rfl, by decide⟩) (by decide)

/-- Two layers over two slots: at position 4 the tokens of the positions 0 and 1 are forgotten. -/
theorem forwardRun_forgets_two :
    (forwardRun sumKernels ⟨1, 2, 1, 1, 9, 8, -1, 1⟩ none (fun p => if p ≤ 1 then 0 else p) twoSlotState 5).logits =
      (forwardRun sumKernels ⟨1, 2, 1, 1, 9, 8, -1, 1⟩ none (fun p => p) twoSlotState 5).logits :=
  forwardRun_forgets sumKernels ⟨1, 2, 1, 1, 9, 8, -1, 1⟩ none twoSlotState twoSlotState (fun p => p)
    (fun p => if p ≤ 1 then 0 else p) 4 (by rintro layer fam ⟨⟩; trivial) ffnFresh_dense (by decide) rfl (by decide) rfl rfl (by decide)
    (by decide) (by decide)

end BitForge.Transformer
