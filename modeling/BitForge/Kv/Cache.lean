/-
The KV caches of `RunState` and the store and history loops of the attention functions
(`attention_forward`, `mla_attention_forward`, `q35_full_attn_forward`,
`qwen3moe_attention_forward`): where the entry of a physical slot lives in the flat cache arrays,
how a forward pass stores the entry of its position, and which entries it reads back.

Entries of different layers or different slots have no cell in common, so a store disturbs no
other entry.
-/
import BitForge.Lib.Region
import BitForge.Kv.Window

namespace BitForge.Kv

open BitForge.Lib

/-- The cache arrays of `RunState`; the arrays allocated per layer carry their layer. -/
inductive KvArray
  | keyCache
  | valueCache
  | kRopeCache (layer : Nat)
  | q35KeyCache (layer : Nat)
  | q35ValueCache (layer : Nat)
  | qwen3moeKeyCache (layer : Nat)
  | qwen3moeValueCache (layer : Nat)
deriving DecidableEq, Repr

/-- The attention functions with a growing cache; MLA stores `qk_nope_head_dim` key and
`v_head_dim` value components per head, and one shared rotary key. -/
inductive AttnFamily
  | generic
  | mla (qkNopeHeadDim qkRopeHeadDim vHeadDim : Nat)
  | q35
  | qwen3moe
deriving DecidableEq, Repr

/-- The sizes that lay out the caches: `n_kv_heads`, `s->max_seq_len` and the head stride
(`config_head_dim` for the first two families, `attn_head_dim` for the others). -/
structure KvGeometry where
  nKvHeads : Nat
  maxSeqLen : Int
  headDim : Nat
deriving DecidableEq, Repr

/-- `KV_CACHE_IDX`. -/
def kvCacheIdx (layer head pos d nKvHeads maxSeq headDim : Int) : Int :=
  layer * nKvHeads * maxSeq * headDim + head * maxSeq * headDim + pos * headDim + d

/-- The offset of a slot in a per-layer cache of `qwen35_attention.c` and `qwen3moe_attention.c`. -/
def kvLayerIdx (head pos maxSeq headDim : Int) : Int := (head * maxSeq + pos) * headDim

/-- The cells that hold the entry of the physical slot `slot` of a layer. -/
def kvRegions (g : KvGeometry) (fam : AttnFamily) (layer : Nat) (slot : Int) : List (Region KvArray) :=
  match fam with
  | .generic => (List.range g.nKvHeads).flatMap fun kvH : Nat =>
      let off := kvCacheIdx layer kvH slot 0 g.nKvHeads g.maxSeqLen g.headDim
      [⟨.keyCache, off, g.headDim⟩, ⟨.valueCache, off, g.headDim⟩]
  | .mla nope rope vDim =>
      ((List.range g.nKvHeads).flatMap fun kvH : Nat =>
        let off := kvCacheIdx layer kvH slot 0 g.nKvHeads g.maxSeqLen g.headDim
        [⟨.keyCache, off, nope⟩, ⟨.valueCache, off, vDim⟩]) ++
      [⟨.kRopeCache layer, slot * rope, rope⟩]
  | .q35 => (List.range g.nKvHeads).flatMap fun kh : Nat =>
      let off := kvLayerIdx kh slot g.maxSeqLen g.headDim
      [⟨.q35KeyCache layer, off, g.headDim⟩, ⟨.q35ValueCache layer, off, g.headDim⟩]
  | .qwen3moe => (List.range g.nKvHeads).flatMap fun kh : Nat =>
      let off := kvLayerIdx kh slot g.maxSeqLen g.headDim
      [⟨.qwen3moeKeyCache layer, off, g.headDim⟩, ⟨.qwen3moeValueCache layer, off, g.headDim⟩]

/-- The caches and the window. -/
structure KvState (F : Type) where
  mem : Mem KvArray F
  sw : SlidingWindow

section

variable {F : Type} (g : KvGeometry) (fam : AttnFamily)

/-- Stores the entry of position `pos` (`buf i` is the source of the `i`-th region: the key and
value buffers of the heads in turn) and advances the write head. -/
def kvStore (s : KvState F) (layer : Nat) (pos : Int) (buf : Nat → Nat → F) : KvState F :=
  let mappedPos := swMapPosition s.sw pos
  { mem := s.mem.copyAll (kvRegions g fam layer mappedPos) buf
    sw := swAdvance s.sw }

/-- Step `t` of the history loops: the entry read for the logical position `histLogical`. -/
def kvRead (s : KvState F) (layer : Nat) (pos t : Int) : List (List F) :=
  let mappedT := swMapPosition s.sw (histLogical s.sw pos t)
  s.mem.slices (kvRegions g fam layer mappedT)

/-- The entries read by the history loops, for `t < valid_ctx`. -/
def kvReads (s : KvState F) (layer : Nat) (pos : Int) : List (List (List F)) :=
  (List.range (swValidCount s.sw pos).toNat).map fun t : Nat => kvRead g fam s layer pos t

end

/-! ## Entries are disjoint

Each cell of an entry determines the layer, the slot and the head it belongs to. -/

/-- MLA keeps its head components inside the head stride `dim / n_heads`. -/
def AttnFamily.Fits (g : KvGeometry) : AttnFamily → Prop
  | .mla nope _ vDim => nope ≤ g.headDim ∧ vDim ≤ g.headDim
  | _ => True

/-- The layer, slot and head of a cell. -/
def cellOwner (g : KvGeometry) (fam : AttnFamily) (k : KvArray) (a : Int) : Int × Int × Int :=
  let row := a / g.headDim
  match k with
  | .keyCache | .valueCache => (row / g.maxSeqLen / g.nKvHeads, row % g.maxSeqLen, row / g.maxSeqLen % g.nKvHeads)
  | .kRopeCache layer =>
      match fam with
      | .mla _ rope _ => (layer, a / rope, 0)
      | _ => (layer, 0, 0)
  | .q35KeyCache layer | .q35ValueCache layer | .qwen3moeKeyCache layer | .qwen3moeValueCache layer =>
      (layer, row % g.maxSeqLen, row / g.maxSeqLen)

theorem ediv_of_block {a r m : Int} (h0 : r * m ≤ a) (h1 : a < r * m + m) : a / m = r := by
  have hm : 0 < m := by omega
  have ha : a = (a - r * m) + r * m := by omega
  rw [ha, Int.add_mul_ediv_right _ _ (ne_of_gt hm), Int.ediv_eq_zero_of_lt (by omega) (by omega), Int.zero_add]

theorem emod_of_block {r m s : Int} (h0 : 0 ≤ s) (h1 : s < m) : (r * m + s) % m = s := by
  rw [Int.add_comm, Int.add_mul_emod_self_right, Int.emod_eq_of_lt h0 h1]

theorem kvCacheIdx_eq (layer head pos nKv maxSeq hd : Int) :
    kvCacheIdx layer head pos 0 nKv maxSeq hd = ((layer * nKv + head) * maxSeq + pos) * hd := by
  unfold kvCacheIdx; ring

section

variable {g : KvGeometry} {slot : Int} (hs : 0 ≤ slot) (hs' : slot < g.maxSeqLen)

include hs hs'

/-- A cell of the head block `h` of a slot in the arrays shared by all layers. -/
theorem owner_shared (fam : AttnFamily) {layer h n : Nat} {a : Int} (hh : h < g.nKvHeads) (hn : n ≤ g.headDim)
    (h0 : kvCacheIdx layer h slot 0 g.nKvHeads g.maxSeqLen g.headDim ≤ a)
    (h1 : a < kvCacheIdx layer h slot 0 g.nKvHeads g.maxSeqLen g.headDim + n) :
    cellOwner g fam .keyCache a = ((layer : Int), slot, (h : Int)) ∧
      cellOwner g fam .valueCache a = ((layer : Int), slot, (h : Int)) := by
  rw [kvCacheIdx_eq] at h0 h1
  have hrow : a / (g.headDim : Int) = ((layer : Int) * g.nKvHeads + h) * g.maxSeqLen + slot :=
    ediv_of_block h0 (by omega)
  have hhead : (((layer : Int) * g.nKvHeads + h) * g.maxSeqLen + slot) / g.maxSeqLen = layer * g.nKvHeads + h :=
    ediv_of_block (by omega) (by omega)
  have hlayer : ((layer : Int) * g.nKvHeads + h) / g.nKvHeads = layer := ediv_of_block (by omega) (by omega)
  have hmod : ((layer : Int) * g.nKvHeads + h) % g.nKvHeads = h := emod_of_block (by omega) (by omega)
  unfold cellOwner
  dsimp only
  rw [hrow, hhead, hlayer, hmod, emod_of_block hs hs']
  exact ⟨rfl, rfl⟩

/-- A cell of the head block `h` of a slot in an array of one layer. -/
theorem owner_layer {h : Nat} {a : Int} (h0 : kvLayerIdx h slot g.maxSeqLen g.headDim ≤ a)
    (h1 : a < kvLayerIdx h slot g.maxSeqLen g.headDim + g.headDim) :
    a / (g.headDim : Int) % g.maxSeqLen = slot ∧ a / (g.headDim : Int) / g.maxSeqLen = h := by
  unfold kvLayerIdx at h0 h1
  have hrow : a / (g.headDim : Int) = (h : Int) * g.maxSeqLen + slot := ediv_of_block h0 (by omega)
  rw [hrow]
  exact ⟨emod_of_block hs hs', ediv_of_block (by omega) (by omega)⟩

/-- Every cell of an entry belongs to the layer and the slot of the entry. -/
theorem owner_of_mem {fam : AttnFamily} (hf : fam.Fits g) {layer : Nat} {r : Region KvArray}
    (hr : r ∈ kvRegions g fam layer slot) {k : KvArray} {a : Int} (ha : r.Has k a) :
    (cellOwner g fam k a).1 = layer ∧ (cellOwner g fam k a).2.1 = slot := by
  obtain ⟨hk, h0, h1⟩ := ha
  cases fam with
  | generic =>
    simp only [kvRegions, List.mem_flatMap, List.mem_range, List.mem_cons, List.not_mem_nil, or_false] at hr
    obtain ⟨h, hh, rfl | rfl⟩ := hr <;> subst hk
    · rw [(owner_shared hs hs' _ hh le_rfl h0 h1).1]; exact ⟨rfl, rfl⟩
    · rw [(owner_shared hs hs' _ hh le_rfl h0 h1).2]; exact ⟨rfl, rfl⟩
  | mla nope rope vDim =>
    simp only [kvRegions, List.mem_append, List.mem_flatMap, List.mem_range, List.mem_cons, List.not_mem_nil,
      or_false] at hr
    obtain ⟨h, hh, rfl | rfl⟩ | rfl := hr <;> subst hk
    · rw [(owner_shared hs hs' _ hh hf.1 h0 h1).1]; exact ⟨rfl, rfl⟩
    · rw [(owner_shared hs hs' _ hh hf.2 h0 h1).2]; exact ⟨rfl, rfl⟩
    · exact ⟨rfl, ediv_of_block h0 h1⟩
  | q35 =>
    simp only [kvRegions, List.mem_flatMap, List.mem_range, List.mem_cons, List.not_mem_nil, or_false] at hr
    obtain ⟨h, hh, rfl | rfl⟩ := hr <;> subst hk <;> exact ⟨rfl, (owner_layer hs hs' h0 h1).1⟩
  | qwen3moe =>
    simp only [kvRegions, List.mem_flatMap, List.mem_range, List.mem_cons, List.not_mem_nil, or_false] at hr
    obtain ⟨h, hh, rfl | rfl⟩ := hr <;> subst hk <;> exact ⟨rfl, (owner_layer hs hs' h0 h1).1⟩

/-- The regions of one entry are pairwise disjoint: they differ in the array or in the head. -/
theorem kvRegions_pairwise {fam : AttnFamily} (hf : fam.Fits g) (layer : Nat) :
    (kvRegions g fam layer slot).Pairwise Region.Disj := by
  have hshared : ∀ n m : Nat, n ≤ g.headDim → m ≤ g.headDim →
      ((List.range g.nKvHeads).flatMap fun kvH : Nat =>
        [(⟨.keyCache, kvCacheIdx layer kvH slot 0 g.nKvHeads g.maxSeqLen g.headDim, n⟩ : Region KvArray),
          ⟨.valueCache, kvCacheIdx layer kvH slot 0 g.nKvHeads g.maxSeqLen g.headDim, m⟩]).Pairwise Region.Disj := by
    intro n m hn hm
    rw [List.pairwise_flatMap]
    refine ⟨fun h _ => by simp [Region.disj_of_arr], List.nodup_range.pairwise_of_forall_ne ?_⟩
    intro h hh h' hh' hne r hr r' hr' k a ha ha'
    simp only [List.mem_cons, List.not_mem_nil, or_false] at hr hr'
    have hh := List.mem_range.1 hh
    have hh' := List.mem_range.1 hh'
    rcases hr with rfl | rfl <;> rcases hr' with rfl | rfl <;>
      (obtain ⟨e, h0, h1⟩ := ha; obtain ⟨e', h0', h1'⟩ := ha'; simp only at e e'; subst e)
    · have e1 := (owner_shared hs hs' fam hh hn h0 h1).1
      rw [(owner_shared hs hs' _ hh' hn h0' h1').1] at e1
      simp only [Prod.mk.injEq, Nat.cast_inj] at e1; exact hne e1.2.2.symm
    · cases e'
    · cases e'
    · have e1 := (owner_shared hs hs' fam hh hm h0 h1).2
      rw [(owner_shared hs hs' _ hh' hm h0' h1').2] at e1
      simp only [Prod.mk.injEq, Nat.cast_inj] at e1; exact hne e1.2.2.symm
  have hlayer : ∀ key value : KvArray, key ≠ value →
      ((List.range g.nKvHeads).flatMap fun kh : Nat =>
        [(⟨key, kvLayerIdx kh slot g.maxSeqLen g.headDim, g.headDim⟩ : Region KvArray),
          ⟨value, kvLayerIdx kh slot g.maxSeqLen g.headDim, g.headDim⟩]).Pairwise Region.Disj := by
    intro key value hkv
    rw [List.pairwise_flatMap]
    refine ⟨fun h _ => by simp [Region.disj_of_arr, hkv], List.nodup_range.pairwise_of_forall_ne ?_⟩
    intro h _ h' _ hne r hr r' hr' k a ha ha'
    simp only [List.mem_cons, List.not_mem_nil, or_false] at hr hr'
    have hb : kvLayerIdx h slot g.maxSeqLen g.headDim ≤ a ∧ a < kvLayerIdx h slot g.maxSeqLen g.headDim + g.headDim := by
      rcases hr with rfl | rfl <;> exact ha.2
    have hb' : kvLayerIdx h' slot g.maxSeqLen g.headDim ≤ a ∧
        a < kvLayerIdx h' slot g.maxSeqLen g.headDim + g.headDim := by
      rcases hr' with rfl | rfl <;> exact ha'.2
    have e1 := (owner_layer hs hs' hb.1 hb.2).2
    rw [(owner_layer hs hs' hb'.1 hb'.2).2, Nat.cast_inj] at e1
    exact hne e1.symm
  cases fam with
  | generic => exact hshared _ _ le_rfl le_rfl
  | mla nope rope vDim =>
    refine List.pairwise_append.2 ⟨hshared _ _ hf.1 hf.2, List.pairwise_singleton _ _, ?_⟩
    intro r hr r' hr'
    simp only [List.mem_flatMap, List.mem_range, List.mem_cons, List.not_mem_nil, or_false] at hr hr'
    obtain ⟨h, -, rfl | rfl⟩ := hr <;> subst hr' <;> exact Region.disj_of_arr (by simp)
  | q35 => exact hlayer _ _ (by simp)
  | qwen3moe => exact hlayer _ _ (by simp)

end

/-- Entries of different layers or different slots are disjoint. -/
theorem kvRegions_disj {g : KvGeometry} {fam : AttnFamily} (hf : fam.Fits g) {layer layer' : Nat} {slot slot' : Int}
    (hs : 0 ≤ slot) (hs1 : slot < g.maxSeqLen) (hs' : 0 ≤ slot') (hs1' : slot' < g.maxSeqLen)
    (hne : layer ≠ layer' ∨ slot ≠ slot') :
    ∀ r ∈ kvRegions g fam layer slot, ∀ r' ∈ kvRegions g fam layer' slot', r.Disj r' := by
  intro r hr r' hr' k a ha ha'
  obtain ⟨h1, h2⟩ := owner_of_mem hs hs1 hf hr ha
  obtain ⟨h1', h2'⟩ := owner_of_mem hs' hs1' hf hr' ha'
  rw [h1'] at h1
  rw [h2'] at h2
  rcases hne with hne | hne
  · exact hne (Int.ofNat.inj h1).symm
  · exact hne h2.symm

end BitForge.Kv
