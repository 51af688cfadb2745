/-
Which positions an attention function may be called with: its store, its history loops and its scores
stay in the cache if and only if the position or the pinned prompt is below the window.
-/
import BitForge.Kv.Cache

namespace BitForge.Kv

/-- What a forward pass at `pos` touches lies in a cache of `maxSeqLen` slots: the slot of its store, the slots
that its history loops read, and its row of attention scores. -/
structure InCache (maxSeqLen : Int) (sw : SlidingWindow) (pos : Int) : Prop where
  store : 0 ≤ swMapPosition sw pos ∧ swMapPosition sw pos < maxSeqLen
  load : ∀ t, 0 ≤ t → t < swValidCount sw pos →
    0 ≤ swMapPosition sw (histLogical sw pos t) ∧ swMapPosition sw (histLogical sw pos t) < maxSeqLen
  scores : swValidCount sw pos ≤ maxSeqLen

theorem InCache.congr {W pos : Int} {sw sw' : SlidingWindow} (hs : SameSizes sw sw') (h : InCache W sw pos) :
    InCache W sw' pos := by
  constructor
  · rw [hs.map]
    exact h.store
  · intro t ht0 ht
    rw [hs.count] at ht
    rw [hs.hist, hs.map]
    exact h.load t ht0 ht
  · rw [hs.count]
    exact h.scores

theorem SameSizes.symm {sw sw' : SlidingWindow} (h : SameSizes sw sw') : SameSizes sw' sw := ⟨h.1.symm, h.2.symm⟩

/-- The slot of a position behind a window that is pinned as a whole. -/
theorem swMapPosition_degenerate {W spl pos : Int} (hspl : W ≤ spl) (hpos : W ≤ pos) :
    W ≤ swMapPosition (swInit W spl) pos := by
  unfold swMapPosition
  dsimp only [swInit]
  split_ifs with hp hc
  · exact hpos
  · exact hspl
  · omega

theorem inCache_iff {W spl pos : Int} (hspl : 0 ≤ spl) (hpos : 0 ≤ pos) :
    InCache W (swInit W spl) pos ↔ spl < W ∨ pos < W := by
  have hcount : swValidCount (swInit W spl) pos ≤ W := by
    unfold swValidCount
    dsimp only [swInit]
    split_ifs <;> omega
  have hslot : spl < W ∨ pos < W → ∀ L, 0 ≤ L → L ≤ pos →
      0 ≤ swMapPosition (swInit W spl) L ∧ swMapPosition (swInit W spl) L < W := by
    intro h L hL hle
    by_cases hlt : spl < W
    · exact swMapPosition_range hspl hlt hL
    · -- the whole run is pinned
      have hid : swMapPosition (swInit W spl) L = L := by
        unfold swMapPosition
        dsimp only [swInit]
        rw [if_pos (by omega)]
      rw [hid]
      omega
  constructor
  · intro h
    by_contra hno
    have hge := @swMapPosition_degenerate W spl pos (by omega) (by omega)
    have hlt := h.store.2
    omega
  · intro h
    refine ⟨hslot h pos hpos (le_refl _), fun t ht0 ht => ?_, hcount⟩
    obtain ⟨h0, -, hle⟩ := histLogical_range ht0 ht
    exact hslot h _ h0 hle

/-! ## The regions of a slot -/

/-- The region lies in the block of one head of the cache, `maxSeqLen` rows of `headDim` cells. -/
def InHead (g : KvGeometry) (layer : Nat) (r : BitForge.Lib.Region KvArray) : Prop :=
  match r.arr with
  | .keyCache | .valueCache => ∃ h < g.nKvHeads, kvCacheIdx layer h 0 0 g.nKvHeads g.maxSeqLen g.headDim ≤ r.off ∧
      r.off + r.len ≤ kvCacheIdx layer h 0 0 g.nKvHeads g.maxSeqLen g.headDim + g.maxSeqLen * g.headDim
  | .kRopeCache l => l = layer ∧ 0 ≤ r.off ∧ r.off + r.len ≤ g.maxSeqLen * r.len
  | .q35KeyCache l | .q35ValueCache l | .qwen3moeKeyCache l | .qwen3moeValueCache l =>
      l = layer ∧ ∃ h < g.nKvHeads, kvLayerIdx h 0 g.maxSeqLen g.headDim ≤ r.off ∧
        r.off + r.len ≤ kvLayerIdx h 0 g.maxSeqLen g.headDim + g.maxSeqLen * g.headDim

theorem row_in_head {W slot : Int} {hd n : Nat} (h0 : 0 ≤ slot) (h1 : slot < W) (hn : n ≤ hd) :
    0 ≤ slot * hd ∧ slot * hd + n ≤ W * hd := by
  have hnonneg : 0 ≤ slot * (hd : Int) := Int.mul_nonneg h0 (Int.natCast_nonneg hd)
  have hmul : (slot + 1) * (hd : Int) ≤ W * hd := Int.mul_le_mul_of_nonneg_right (by omega) (Int.natCast_nonneg hd)
  rw [Int.add_mul, Int.one_mul] at hmul
  omega

/-- A slot of the cache lies in the blocks of its heads. -/
theorem kvRegions_inHead {g : KvGeometry} {fam : AttnFamily} (hfits : fam.Fits g) {layer : Nat} {slot : Int}
    (h0 : 0 ≤ slot) (h1 : slot < g.maxSeqLen) : ∀ r ∈ kvRegions g fam layer slot, InHead g layer r := by
  have hshared : ∀ (h n : Nat), n ≤ g.headDim →
      kvCacheIdx layer h 0 0 g.nKvHeads g.maxSeqLen g.headDim ≤ kvCacheIdx layer h slot 0 g.nKvHeads g.maxSeqLen g.headDim ∧
        kvCacheIdx layer h slot 0 g.nKvHeads g.maxSeqLen g.headDim + n ≤
          kvCacheIdx layer h 0 0 g.nKvHeads g.maxSeqLen g.headDim + g.maxSeqLen * g.headDim := by
    intro h n hn
    obtain ⟨hlo, hhi⟩ := row_in_head h0 h1 hn
    unfold kvCacheIdx
    omega
  have hlayer : ∀ h : Nat, kvLayerIdx h 0 g.maxSeqLen g.headDim ≤ kvLayerIdx h slot g.maxSeqLen g.headDim ∧
      kvLayerIdx h slot g.maxSeqLen g.headDim + g.headDim ≤
        kvLayerIdx h 0 g.maxSeqLen g.headDim + g.maxSeqLen * g.headDim := by
    intro h
    obtain ⟨hlo, hhi⟩ := row_in_head h0 h1 (le_refl g.headDim)
    unfold kvLayerIdx
    rw [Int.add_mul, Int.add_mul]
    omega
  intro r hr
  cases fam with
  | generic =>
    simp only [kvRegions, List.mem_flatMap, List.mem_range, List.mem_cons, List.not_mem_nil, or_false] at hr
    obtain ⟨h, hlt, rfl | rfl⟩ := hr
    · exact ⟨h, hlt, hshared h g.headDim (le_refl _)⟩
    · exact ⟨h, hlt, hshared h g.headDim (le_refl _)⟩
  | mla nope rope vDim =>
    simp only [kvRegions, List.mem_append, List.mem_flatMap, List.mem_range, List.mem_cons, List.not_mem_nil,
      or_false] at hr
    rcases hr with ⟨h, hlt, rfl | rfl⟩ | rfl
    · exact ⟨h, hlt, hshared h nope hfits.1⟩
    · exact ⟨h, hlt, hshared h vDim hfits.2⟩
    · obtain ⟨hlo, hhi⟩ := row_in_head h0 h1 (le_refl rope)
      exact ⟨rfl, hlo, hhi⟩
  | q35 =>
    simp only [kvRegions, List.mem_flatMap, List.mem_range, List.mem_cons, List.not_mem_nil, or_false] at hr
    obtain ⟨h, hlt, rfl | rfl⟩ := hr
    · exact ⟨rfl, h, hlt, hlayer h⟩
    · exact ⟨rfl, h, hlt, hlayer h⟩
  | qwen3moe =>
    simp only [kvRegions, List.mem_flatMap, List.mem_range, List.mem_cons, List.not_mem_nil, or_false] at hr
    obtain ⟨h, hlt, rfl | rfl⟩ := hr
    · exact ⟨rfl, h, hlt, hlayer h⟩
    · exact ⟨rfl, h, hlt, hlayer h⟩

/-- The accesses of an attention function in a layer of the pass at `pos`: what it stores and what its history loops load lies
in the blocks of the heads, and the scores of a head in the head's row of `att`. -/
structure AccessesInHead (g : KvGeometry) (fam : AttnFamily) (layer : Nat) (sw : SlidingWindow) (pos : Int) : Prop where
  store : ∀ r ∈ kvRegions g fam layer (swMapPosition sw pos), InHead g layer r
  load : ∀ t, 0 ≤ t → t < swValidCount sw pos → ∀ r ∈ kvRegions g fam layer (swMapPosition sw (histLogical sw pos t)), InHead g layer r
  scores : ∀ (h : Nat) (t : Int), 0 ≤ t → t < swValidCount sw pos →
    h * g.maxSeqLen ≤ h * g.maxSeqLen + t ∧ h * g.maxSeqLen + t < (h + 1) * g.maxSeqLen

theorem InCache.accessesInHead {g : KvGeometry} {fam : AttnFamily} (hfits : fam.Fits g) {sw : SlidingWindow} {pos : Int}
    (h : InCache g.maxSeqLen sw pos) (layer : Nat) : AccessesInHead g fam layer sw pos where
  store := kvRegions_inHead hfits h.store.1 h.store.2
  load t ht0 ht := kvRegions_inHead hfits (h.load t ht0 ht).1 (h.load t ht0 ht).2
  scores head t ht0 ht := by
    have hcount := h.scores
    rw [Int.add_mul, Int.one_mul]
    constructor <;> omega

end BitForge.Kv
