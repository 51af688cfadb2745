/-
Runs of forward passes over the positions `0, 1, ..`: what the history loops read back. The
passes of a run store one entry per layer and position; a position of the last `W` is read back
unharmed as long as the positions of one history have different slots, which is so before the
window wraps and, without pinned positions, for ever. With pinned positions a wrapped window
attends neither to all of them nor to different slots.
-/
import BitForge.Kv.Cache

namespace BitForge.Kv

open BitForge.Lib

section

variable {F : Type} (g : KvGeometry) (fam : AttnFamily) (buf : Nat → Int → Nat → Nat → F)

/-- The stores of one forward pass in the layers `0 .. n - 1`; `buf layer pos` are the key and
value buffers of the layer. -/
def kvLayers (pos : Int) : Nat → KvState F → KvState F
  | 0, s => s
  | n + 1, s => kvStore g fam (kvLayers pos n s) n pos (buf n pos)

/-- The forward passes over the positions `0 .. n - 1`. -/
def kvRun (nLayers : Nat) : Nat → KvState F → KvState F
  | 0, s => s
  | n + 1, s => kvLayers g fam buf n nLayers (kvRun nLayers n s)

/-- The state in which `layer` reads its history in the pass of `pos`. -/
def kvAt (nLayers layer pos : Nat) (s : KvState F) : KvState F :=
  kvLayers g fam buf pos (layer + 1) (kvRun g fam buf nLayers pos s)

end

/-- Faithfulness of the runs up to `pos`, from any cache contents and for any keys and values. -/
structure KvFaithful (g : KvGeometry) (fam : AttnFamily) (nLayers : Nat) (spl : Int) (pos : Nat) : Prop where
  /-- Each step of a history loop reads the entry written for its logical position. -/
  reads : ∀ (F : Type) (buf : Nat → Int → Nat → Nat → F) (mem : Mem KvArray F), ∀ q ≤ pos, ∀ layer < nLayers,
    let s := kvAt g fam buf nLayers layer q ⟨mem, swInit g.maxSeqLen spl⟩
    ∀ t : Int, 0 ≤ t → t < swValidCount s.sw q →
      kvRead g fam s layer q t =
        Mem.buffers (kvRegions g fam layer (swMapPosition s.sw (histLogical s.sw q t)))
          (buf layer (histLogical s.sw q t))
  /-- Different logical positions of a history have different slots. -/
  slots : ∀ q ≤ pos, let sw := swInit g.maxSeqLen spl
    ∀ t t' : Int, 0 ≤ t → t < swValidCount sw q → 0 ≤ t' → t' < swValidCount sw q →
      histLogical sw q t ≠ histLogical sw q t' →
        swMapPosition sw (histLogical sw q t) ≠ swMapPosition sw (histLogical sw q t')
  /-- The pinned positions are attended. -/
  pinned : ∀ q ≤ pos, let sw := swInit g.maxSeqLen spl
    ∀ p : Int, 0 ≤ p → p < spl → p ≤ q → ∃ t : Int, 0 ≤ t ∧ t < swValidCount sw q ∧ histLogical sw q t = p

/-! ## What a run preserves -/

/-- The positions of one history up to `pos` have different slots. -/
def SlotsApart (W spl : Int) (pos : Nat) : Prop :=
  ∀ L L' : Int, 0 ≤ L → L < L' → L' ≤ pos → L' < L + W →
    swMapPosition (swInit W spl) L ≠ swMapPosition (swInit W spl) L'

theorem slotsApart {W spl : Int} {pos : Nat} (h1 : spl < W) (h : spl = 0 ∨ pos < W) :
    SlotsApart W spl pos := by
  intro L L' hL hlt hle hnear
  rcases h with rfl | h
  · rw [swMapPosition_ring h1 hL, swMapPosition_ring h1 (by omega)]
    exact emod_ne_of_near hlt hnear
  · rw [swMapPosition_lt h1 (by omega), swMapPosition_lt h1 (by omega)]
    omega

/-- The state within the pass of `pos`, after its first `k` layers: every layer holds the entries
of the last `W` positions it has stored. -/
structure KvInv {F : Type} (g : KvGeometry) (fam : AttnFamily) (buf : Nat → Int → Nat → Nat → F) (nLayers : Nat)
    (spl : Int) (pos k : Nat) (s : KvState F) : Prop where
  sizes : SameSizes (swInit g.maxSeqLen spl) s.sw
  holds : ∀ layer < nLayers, ∀ L : Int, 0 ≤ L → L < pos ∨ (L = pos ∧ layer < k) → pos < L + g.maxSeqLen →
    let rs := kvRegions g fam layer (swMapPosition (swInit g.maxSeqLen spl) L)
    s.mem.slices rs = Mem.buffers rs (buf layer L)

section

variable {F : Type} {g : KvGeometry} {fam : AttnFamily} {buf : Nat → Int → Nat → Nat → F} {nLayers : Nat} {spl : Int}
variable (hf : fam.Fits g) (h0 : 0 ≤ spl) (h1 : spl < g.maxSeqLen)

include hf h0 h1

/-- A store keeps the entries of the other layers and of the other positions of the history. -/
theorem KvInv.store {pos k : Nat} {s : KvState F} (ha : SlotsApart g.maxSeqLen spl pos)
    (hi : KvInv g fam buf nLayers spl pos k s) :
    KvInv g fam buf nLayers spl pos (k + 1) (kvStore g fam s k pos (buf k pos)) where
  sizes := hi.sizes.advance
  holds := by
    intro layer hl L hL hlt hnear
    have hpos := swMapPosition_range h0 h1 (Int.natCast_nonneg pos)
    have hslot := swMapPosition_range h0 h1 hL
    dsimp only [kvStore]
    rw [hi.sizes.map]
    by_cases hself : L = pos ∧ layer = k
    · obtain ⟨rfl, rfl⟩ := hself
      exact Mem.slices_copyAll_self _ _ _ (kvRegions_pairwise hslot.1 hslot.2 hf _)
    · have hne : k ≠ layer ∨
          swMapPosition (swInit g.maxSeqLen spl) pos ≠ swMapPosition (swInit g.maxSeqLen spl) L := by
        by_cases hk : k = layer
        · exact .inr (ha L pos hL (by omega) le_rfl hnear).symm
        · exact .inl hk
      rw [Mem.slices_copyAll_disj _ _ _ _ (kvRegions_disj hf hpos.1 hpos.2 hslot.1 hslot.2 hne)]
      exact hi.holds layer hl L hL (by omega) hnear

theorem KvInv.layers {pos : Nat} {s : KvState F} (ha : SlotsApart g.maxSeqLen spl pos)
    (hi : KvInv g fam buf nLayers spl pos 0 s) :
    ∀ n : Nat, KvInv g fam buf nLayers spl pos n (kvLayers g fam buf pos n s)
  | 0 => hi
  | n + 1 => (KvInv.layers ha hi n).store hf h0 h1 ha

omit hf h0 h1 in
/-- After its last layer a pass has become history. -/
theorem KvInv.next {pos : Nat} {s : KvState F} (hi : KvInv g fam buf nLayers spl pos nLayers s) :
    KvInv g fam buf nLayers spl (pos + 1) 0 s where
  sizes := hi.sizes
  holds layer hl L hL hlt hnear := hi.holds layer hl L hL (by omega) (by omega)

theorem KvInv.run (mem : Mem KvArray F) :
    ∀ pos : Nat, SlotsApart g.maxSeqLen spl pos →
      KvInv g fam buf nLayers spl pos 0 (kvRun g fam buf nLayers pos ⟨mem, swInit g.maxSeqLen spl⟩)
  | 0, _ => ⟨SameSizes.refl _, fun _ _ L hL hlt _ => by omega⟩
  | pos + 1, ha =>
    have ha' : SlotsApart g.maxSeqLen spl pos := fun L L' hL hlt hle => ha L L' hL hlt (by omega)
    ((KvInv.run mem pos ha').layers hf h0 h1 ha' nLayers).next

theorem kvAt_inv (buf : Nat → Int → Nat → Nat → F) (nLayers : Nat) {pos : Nat} (ha : SlotsApart g.maxSeqLen spl pos)
    (mem : Mem KvArray F) (layer : Nat) :
    KvInv g fam buf nLayers spl pos (layer + 1)
      (kvAt g fam buf nLayers layer pos ⟨mem, swInit g.maxSeqLen spl⟩) :=
  (KvInv.run hf h0 h1 mem pos ha).layers hf h0 h1 ha (layer + 1)

end

/-! ## When the window is faithful -/

/-- A history loop reads what was written, as long as the slots of a history are apart. -/
theorem kvRead_eq {F : Type} {g : KvGeometry} {fam : AttnFamily} (hf : fam.Fits g) {nLayers layer q : Nat} {spl : Int}
    (h0 : 0 ≤ spl) (h1 : spl < g.maxSeqLen) (ha : SlotsApart g.maxSeqLen spl q) (hl : layer < nLayers)
    (buf : Nat → Int → Nat → Nat → F) (mem : Mem KvArray F) {t : Int} (ht0 : 0 ≤ t)
    (ht : t < swValidCount (swInit g.maxSeqLen spl) q) :
    kvRead g fam (kvAt g fam buf nLayers layer q ⟨mem, swInit g.maxSeqLen spl⟩) layer q t =
      let L := histLogical (swInit g.maxSeqLen spl) q t
      Mem.buffers (kvRegions g fam layer (swMapPosition (swInit g.maxSeqLen spl) L)) (buf layer L) := by
  have hi := kvAt_inv hf h0 h1 buf nLayers ha mem layer
  obtain ⟨hL, hnear, hle⟩ := histLogical_range ht0 ht
  unfold kvRead
  rw [hi.sizes.hist, hi.sizes.map]
  exact hi.holds layer hl _ hL (by omega) (by omega)

/-- The window is faithful exactly when nothing is pinned or it has not wrapped. -/
theorem kvFaithful_iff (g : KvGeometry) (fam : AttnFamily) (hf : fam.Fits g) (nLayers : Nat) (spl : Int) (pos : Nat)
    (h0 : 0 ≤ spl) (h1 : spl < g.maxSeqLen) :
    KvFaithful g fam nLayers spl pos ↔ spl = 0 ∨ pos < g.maxSeqLen := by
  constructor
  · intro h
    by_contra hc
    -- at `pos` the history starts after position 0, which is pinned
    obtain ⟨t, ht0, -, ht⟩ := h.pinned pos le_rfl 0 le_rfl (by omega) (by omega)
    rw [histLogical_eq, if_neg (by omega)] at ht
    omega
  · intro h
    have happ : ∀ q ≤ pos, SlotsApart g.maxSeqLen spl q := fun q hq => slotsApart h1 (by omega)
    refine ⟨?_, ?_, ?_⟩
    · intro F buf mem q hq layer hl s t ht0 ht
      have hs := (kvAt_inv hf h0 h1 buf nLayers (happ q hq) mem layer).sizes
      rw [hs.count] at ht
      rw [hs.hist, hs.map]
      exact kvRead_eq hf h0 h1 (happ q hq) hl buf mem ht0 ht
    · intro q hq sw t t' ht0 ht ht0' ht' hne
      obtain ⟨hL, hn, hle⟩ : 0 ≤ histLogical sw q t ∧ q - g.maxSeqLen < histLogical sw q t ∧ histLogical sw q t ≤ q :=
        histLogical_range ht0 ht
      obtain ⟨hL', hn', hle'⟩ : 0 ≤ histLogical sw q t' ∧ q - g.maxSeqLen < histLogical sw q t' ∧ histLogical sw q t' ≤ q :=
        histLogical_range ht0' ht'
      rcases lt_or_gt_of_ne hne with hlt | hlt
      · exact happ q hq _ _ hL hlt (by omega) (by omega)
      · exact (happ q hq _ _ hL' hlt (by omega) (by omega)).symm
    · intro q hq sw p hp0 hp hpq
      refine ⟨p, hp0, ?_, ?_⟩
      · unfold swValidCount
        dsimp only [sw, swInit]
        split_ifs <;> omega
      · rw [histLogical_eq, if_pos (by omega)]

/-- Both sides of the equivalence occur: four slots, one of them pinned, before and at the wrap. -/
theorem kvFaithful_iff_four :
    KvFaithful ⟨1, 4, 2⟩ .q35 1 1 3 ∧ ¬ KvFaithful ⟨1, 4, 2⟩ .q35 1 1 4 :=
  ⟨(kvFaithful_iff ⟨1, 4, 2⟩ .q35 trivial 1 1 3 (by decide) (by decide)).2 (by decide),
    fun h => absurd ((kvFaithful_iff ⟨1, 4, 2⟩ .q35 trivial 1 1 4 (by decide) (by decide)).1 h) (by decide)⟩

/-- In a wrapped window of four slots with one pinned position the positions 1 and 4 share a
slot, so the entry read for position 1 is that of position 4, and position 0 is not attended. -/
theorem wrapped_pinned_window :
    let g : KvGeometry := ⟨1, 4, 1⟩
    let sw := swInit 4 1
    let s : KvState Int := kvAt g .generic (fun _ p _ _ => p) 1 0 4 ⟨fun _ _ => 0, sw⟩
    histLogical s.sw 4 0 = 1 ∧ histLogical s.sw 4 3 = 4 ∧ swMapPosition s.sw 1 = swMapPosition s.sw 4 ∧
      kvRead g .generic s 0 4 0 = [[4], [4]] ∧ (∀ t ∈ [0, 1, 2, 3], histLogical s.sw 4 t ≠ 0) ∧
      ¬ KvFaithful g .generic 1 1 4 := by
  refine ⟨by decide, by decide, by decide, by decide, by decide, fun h => ?_⟩
  obtain ⟨t, ht0, -, ht⟩ := h.pinned 4 le_rfl 0 le_rfl (by decide) (by decide)
  rw [histLogical_eq] at ht
  simp only [Nat.cast_ofNat, lt_irrefl, if_false] at ht
  omega

end BitForge.Kv
