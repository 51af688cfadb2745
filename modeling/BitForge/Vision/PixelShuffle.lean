/-
The pixel shuffle of `multimodal/vision_projector.c`: how many tokens there are, and the patches that each is made of. A
product is missing where it overflows `int`.
-/
import BitForge.Lib.Writes
import Mathlib.Data.Nat.Sqrt
import Mathlib.Tactic

namespace BitForge.Vision

open BitForge.Lib.Writes

/-- A product of `int`. -/
def intProduct (a b : Nat) : Option Nat := if a * b < 2 ^ 31 then some (a * b) else none

/-- `vision_projector_output_tokens` -/
def visionProjectorOutputTokens (scaleFactor numEncoderPatches : Nat) : Option Nat :=
  if scaleFactor ≤ 1 then some numEncoderPatches
  else do
    let s2 ← intProduct scaleFactor scaleFactor
    some (numEncoderPatches / s2)

/-- `grid_w`, the square root rounded to the nearest integer. -/
def gridW (numPatches : Nat) : Nat := (Nat.sqrt (4 * numPatches) + 1) / 2

/-- `in_idx` -/
def inIdx (gridW sf oy ox dy dx : Nat) : Nat :=
  let inY := oy * sf + dy
  let inX := ox * sf + dx
  inY * gridW + inX

/-- The fields of `VisionProjector` that are read. -/
structure VisionProjector where
  visionDim : Nat
  llmDim : Nat
  hiddenDim : Nat
  scaleFactor : Nat
deriving DecidableEq, Repr

/-- Whether `tn_aligned_alloc` returns a buffer for a size that the memory has room for: none for no bytes. -/
def tnAlignedAlloc (size : Nat) : Bool := size ≠ 0

/-- `vision_projector_forward_batch`: for each output token that is written in turn, the patches of its input. -/
def visionProjectorForwardBatch (proj : VisionProjector) (numPatches : Nat) : Option (List (List Nat)) :=
  let sf := proj.scaleFactor
  if sf > 1 then do
    let s2 ← intProduct sf sf
    let gridW := gridW numPatches
    let outGrid := gridW / sf
    let shuffleDim ← intProduct proj.visionDim s2
    if !tnAlignedAlloc (outGrid * outGrid * shuffleDim * 4) then return []
    some ((List.range outGrid).flatMap fun oy => (List.range outGrid).map fun ox =>
      (List.range sf).flatMap fun dy => (List.range sf).map fun dx => inIdx gridW sf oy ox dy dx)
  else if !tnAlignedAlloc (proj.hiddenDim * 4) then some []
  else if (List.range numPatches).all fun p => (intProduct p proj.llmDim).isSome && (intProduct p proj.visionDim).isSome then
    some ((List.range numPatches).map fun p => [p])
  else none

/-- The token whose block a patch lies in, and its slot. -/
def tokenOf (w sf p : Nat) : Nat := p / w / sf * (w / sf) + p % w / sf

def slotOf (w sf p : Nat) : Nat := p / w % sf * sf + p % w % sf

/-- As many tokens are written as are taken, and each patch is part of just the token of its block, at its slot. -/
def CoversGrid (proj : VisionProjector) (numPatches : Nat) : Prop :=
  ∃ tokens, visionProjectorForwardBatch proj numPatches = some tokens ∧
    visionProjectorOutputTokens proj.scaleFactor numPatches = some tokens.length ∧
    ∀ p < numPatches, ∀ t s, (tokens.getD t [])[s]? = some p ↔
      t = tokenOf (Nat.sqrt numPatches) proj.scaleFactor p ∧ s = slotOf (Nat.sqrt numPatches) proj.scaleFactor p

/-- The projector fits `w * w` patches: a grid that the scale factor divides and a shuffled dimension that is an `int`, or,
without a shuffle, hidden activations and offsets that are `int`. -/
def Projects (proj : VisionProjector) (w : Nat) : Prop :=
  if 1 < proj.scaleFactor then proj.scaleFactor ∣ w ∧ proj.visionDim * (proj.scaleFactor * proj.scaleFactor) < 2 ^ 31
  else w = 0 ∨ 0 < proj.hiddenDim ∧ (w * w - 1) * proj.llmDim < 2 ^ 31 ∧ (w * w - 1) * proj.visionDim < 2 ^ 31

instance (proj : VisionProjector) (w : Nat) : Decidable (Projects proj w) := by
  unfold Projects; infer_instance

/-! ## The grid -/

theorem gridW_square (w : Nat) : gridW (w * w) = w := by
  have hroot : Nat.sqrt (4 * (w * w)) = 2 * w := by
    rw [show 4 * (w * w) = 2 * w * (2 * w) by ring, Nat.sqrt_eq]
  unfold gridW
  rw [hroot]
  omega

/-- The patch at the position `s` of the token `t`. -/
def patchAt (w sf t s : Nat) : Nat := inIdx w sf (t / (w / sf)) (t % (w / sf)) (s / sf) (s % sf)

theorem forwardBatch_eq {proj : VisionProjector} {sf w : Nat} (hproj : proj.scaleFactor = sf) (hsf : 1 < sf)
    (hsize : proj.visionDim * (sf * sf) < 2 ^ 31) (hs2 : sf * sf < 2 ^ 31) (hdim : 0 < proj.visionDim) :
    visionProjectorForwardBatch proj (w * w) =
      some ((List.range (w / sf * (w / sf))).map fun t => (List.range (sf * sf)).map fun s => patchAt w sf t s) := by
  have hrows : ∀ oy ox, ((List.range sf).flatMap fun dy => (List.range sf).map fun dx => inIdx w sf oy ox dy dx) =
      (List.range (sf * sf)).map fun s => inIdx w sf oy ox (s / sf) (s % sf) := fun oy ox => rows_flatMap _ sf (by omega)
  unfold visionProjectorForwardBatch intProduct
  dsimp only
  rw [hproj, if_pos hsf, if_pos hs2, gridW_square]
  simp only [Option.bind_eq_bind, Option.bind_some, if_pos hsize, hrows]
  rcases Nat.eq_zero_or_pos (w / sf) with hzero | hpos
  · rw [hzero]
    split_ifs <;> rfl
  · have halloc : tnAlignedAlloc (w / sf * (w / sf) * (proj.visionDim * (sf * sf)) * 4) = true := by
      unfold tnAlignedAlloc
      exact decide_eq_true (by positivity)
    rw [halloc, rows_flatMap _ _ hpos]
    rfl

/-- Without a shuffle every patch is a token of its own, where the hidden activations are allocated and the offsets fit. -/
theorem forwardBatch_one {proj : VisionProjector} (hsf : proj.scaleFactor ≤ 1) (n : Nat) :
    visionProjectorForwardBatch proj n =
      if proj.hiddenDim = 0 then some []
      else if ∀ p < n, p * proj.llmDim < 2 ^ 31 ∧ p * proj.visionDim < 2 ^ 31 then some ((List.range n).map fun p => [p])
      else none := by
  have hhidden : tnAlignedAlloc (proj.hiddenDim * 4) = decide (proj.hiddenDim ≠ 0) := by
    unfold tnAlignedAlloc
    exact decide_eq_decide.2 (by omega)
  have hsome : ∀ a b, (intProduct a b).isSome = decide (a * b < 2 ^ 31) := by
    intro a b
    unfold intProduct
    split_ifs with h
    · exact (decide_eq_true h).symm
    · exact (decide_eq_false h).symm
  unfold visionProjectorForwardBatch
  dsimp only
  rw [if_neg (by omega), hhidden]
  by_cases hzero : proj.hiddenDim = 0
  · rw [if_pos hzero, hzero]
    rfl
  · rw [if_neg hzero, decide_eq_true hzero]
    simp [hsome]

/-- A patch at a position, by the rows and columns of the grid. -/
theorem patchAt_eq_iff {w sf t s p : Nat} (hsf : 0 < sf) (hdvd : sf ∣ w) (hw : 0 < w) (hs : s < sf * sf) :
    patchAt w sf t s = p ↔ t = tokenOf w sf p ∧ s = slotOf w sf p := by
  obtain ⟨g, rfl⟩ := hdvd
  have hg : 0 < g := Nat.pos_of_mul_pos_left hw
  have hgrid : sf * g / sf = g := Nat.mul_div_cancel_left g hsf
  have hdx : s % sf < sf := Nat.mod_lt s hsf
  have hox : t % g < g := Nat.mod_lt t hg
  have hx : t % g * sf + s % sf < sf * g := by
    have hmul : (t % g + 1) * sf ≤ g * sf := Nat.mul_le_mul_right sf hox
    rw [Nat.add_mul, Nat.one_mul] at hmul
    rw [Nat.mul_comm sf g]
    omega
  have hdy : s / sf < sf := Nat.div_lt_of_lt_mul hs
  unfold patchAt inIdx tokenOf slotOf
  dsimp only
  rw [hgrid]
  constructor
  · rintro rfl
    have hrow : ((t / g * sf + s / sf) * (sf * g) + (t % g * sf + s % sf)) / (sf * g) = t / g * sf + s / sf := by
      rw [Nat.mul_comm _ (sf * g), Nat.mul_add_div hw, Nat.div_eq_of_lt hx, Nat.add_zero]
    have hcol : ((t / g * sf + s / sf) * (sf * g) + (t % g * sf + s % sf)) % (sf * g) = t % g * sf + s % sf := by
      rw [Nat.mul_comm _ (sf * g), Nat.mul_add_mod, Nat.mod_eq_of_lt hx]
    have hpart : ∀ q r : Nat, r < sf → (q * sf + r) / sf = q ∧ (q * sf + r) % sf = r := by
      intro q r hr
      rw [Nat.mul_comm q sf, Nat.mul_add_div hsf, Nat.div_eq_of_lt hr, Nat.mul_add_mod, Nat.mod_eq_of_lt hr]
      exact ⟨rfl, rfl⟩
    rw [hrow, hcol, (hpart _ _ hdy).1, (hpart _ _ hdy).2, (hpart _ _ hdx).1, (hpart _ _ hdx).2, Nat.div_add_mod', Nat.div_add_mod']
    exact ⟨rfl, rfl⟩
  · rintro ⟨rfl, rfl⟩
    have hcol : p % (sf * g) / sf < g := Nat.div_lt_of_lt_mul (Nat.mod_lt p hw)
    have htok : (p / (sf * g) / sf * g + p % (sf * g) / sf) / g = p / (sf * g) / sf ∧
        (p / (sf * g) / sf * g + p % (sf * g) / sf) % g = p % (sf * g) / sf := by
      rw [Nat.mul_comm _ g, Nat.mul_add_div hg, Nat.div_eq_of_lt hcol, Nat.mul_add_mod, Nat.mod_eq_of_lt hcol]
      exact ⟨rfl, rfl⟩
    have hmod := Nat.mod_lt (p % (sf * g)) hsf
    have hslot : (p / (sf * g) % sf * sf + p % (sf * g) % sf) / sf = p / (sf * g) % sf ∧
        (p / (sf * g) % sf * sf + p % (sf * g) % sf) % sf = p % (sf * g) % sf := by
      rw [Nat.mul_comm _ sf, Nat.mul_add_div hsf, Nat.div_eq_of_lt hmod, Nat.mul_add_mod, Nat.mod_eq_of_lt hmod]
      exact ⟨rfl, rfl⟩
    rw [htok.1, htok.2, hslot.1, hslot.2, Nat.div_add_mod', Nat.div_add_mod', Nat.div_add_mod']

/-- A patch lies in a token of the grid, at a slot of the block. -/
theorem tokenOf_lt {w sf p : Nat} (hsf : 0 < sf) (hdvd : sf ∣ w) (hp : p < w * w) :
    tokenOf w sf p < w / sf * (w / sf) ∧ slotOf w sf p < sf * sf := by
  obtain ⟨g, rfl⟩ := hdvd
  have hw : 0 < sf * g := Nat.pos_of_ne_zero fun h0 => by simp [h0] at hp
  have hrow : p / (sf * g) / sf < g := Nat.div_lt_of_lt_mul (Nat.div_lt_of_lt_mul hp)
  have hcol : p % (sf * g) / sf < g := Nat.div_lt_of_lt_mul (Nat.mod_lt p hw)
  have hdy := Nat.mod_lt (p / (sf * g)) hsf
  have hdx := Nat.mod_lt (p % (sf * g)) hsf
  have hcell : ∀ {n i j : Nat}, i < n → j < n → i * n + j < n * n := by
    intro n i j hi hj
    have hmul : (i + 1) * n ≤ n * n := Nat.mul_le_mul_right n hi
    rw [Nat.add_mul, Nat.one_mul] at hmul
    omega
  unfold tokenOf slotOf
  rw [Nat.mul_div_cancel_left g hsf]
  exact ⟨hcell hrow hcol, hcell hdy hdx⟩

/-! ## The cover -/

theorem getElem?_map_range {α : Type} (f : Nat → α) (n i : Nat) : ((List.range n).map f)[i]? = if i < n then some (f i) else none := by
  split_ifs with h
  · simp [h]
  · simp [h]

theorem covers_one {proj : VisionProjector} (hsf : proj.scaleFactor = 1) {w : Nat}
    (hbatch : visionProjectorForwardBatch proj (w * w) = some ((List.range (w * w)).map fun p => [p])) : CoversGrid proj (w * w) := by
  refine ⟨_, hbatch, by simp [visionProjectorOutputTokens, hsf], fun p hp t s => ?_⟩
  have htoken : tokenOf w 1 p = p := by
    unfold tokenOf
    rw [Nat.div_one, Nat.div_one, Nat.div_one, Nat.div_add_mod']
  have hslot : slotOf w 1 p = 0 := by simp [slotOf, Nat.mod_one]
  rw [Nat.sqrt_eq, hsf, htoken, hslot, List.getD_eq_getElem?_getD, getElem?_map_range]
  split_ifs with ht
  · cases s <;> simp
  · simp
    omega

/-- Without a shuffle the grid is covered for just the hidden activations that can be allocated and the offsets that fit. -/
theorem coversGrid_one_iff {proj : VisionProjector} (hsf : proj.scaleFactor = 1) (w : Nat) :
    CoversGrid proj (w * w) ↔
      w = 0 ∨ 0 < proj.hiddenDim ∧ (w * w - 1) * proj.llmDim < 2 ^ 31 ∧ (w * w - 1) * proj.visionDim < 2 ^ 31 := by
  have hbatch := forwardBatch_one (Nat.le_of_eq hsf) (w * w)
  rcases Nat.eq_zero_or_pos w with rfl | hw
  · refine iff_of_true (covers_one hsf ?_) (.inl rfl)
    rw [hbatch]
    simp
  have hsquare : 0 < w * w := Nat.mul_pos hw hw
  -- the last patch has the largest offsets
  have hall : (∀ p < w * w, p * proj.llmDim < 2 ^ 31 ∧ p * proj.visionDim < 2 ^ 31) ↔
      (w * w - 1) * proj.llmDim < 2 ^ 31 ∧ (w * w - 1) * proj.visionDim < 2 ^ 31 := by
    constructor
    · exact fun h => h _ (by omega)
    · intro h p hp
      exact ⟨(Nat.mul_le_mul_right _ (by omega)).trans_lt h.1, (Nat.mul_le_mul_right _ (by omega)).trans_lt h.2⟩
  simp only [hall] at hbatch
  constructor
  · rintro ⟨tokens, htokens, hcount, -⟩
    rw [hbatch] at htokens
    refine .inr ?_
    split_ifs at htokens with hzero hfit
    · obtain rfl := Option.some.inj htokens
      unfold visionProjectorOutputTokens at hcount
      rw [if_pos (by omega), Option.some.injEq, List.length_nil] at hcount
      omega
    · exact ⟨Nat.pos_of_ne_zero hzero, hfit⟩
  · rintro (rfl | ⟨hhidden, hfit⟩)
    · exact absurd hw (lt_irrefl 0)
    · rw [if_neg hhidden.ne', if_pos hfit] at hbatch
      exact covers_one hsf hbatch

/-- The tokens of a pixel shuffle, where the scale factor divides the side. -/
theorem covers_of_dvd {proj : VisionProjector} {sf w : Nat} (hproj : proj.scaleFactor = sf) (hsf : 1 < sf) (hdvd : sf ∣ w)
    (hdim : 0 < proj.visionDim) (hsize : proj.visionDim * (sf * sf) < 2 ^ 31) : CoversGrid proj (w * w) := by
  have hs2 : sf * sf < 2 ^ 31 := (Nat.le_mul_of_pos_left _ hdim).trans_lt hsize
  refine ⟨_, forwardBatch_eq hproj hsf hsize hs2 hdim, ?_, fun p hp t s => ?_⟩
  · unfold visionProjectorOutputTokens intProduct
    rw [hproj, if_neg (by omega), if_pos hs2, List.length_map, List.length_range]
    obtain ⟨g, rfl⟩ := hdvd
    rw [Nat.mul_div_cancel_left g (by omega), Option.bind_eq_bind, Option.bind_some, Nat.mul_mul_mul_comm,
      Nat.mul_div_cancel_left _ (by positivity)]
  · have hw : 0 < w := Nat.pos_of_ne_zero fun h0 => by simp [h0] at hp
    obtain ⟨htoken, hslot⟩ := tokenOf_lt (show 0 < sf by omega) hdvd hp
    rw [Nat.sqrt_eq, hproj, List.getD_eq_getElem?_getD, getElem?_map_range]
    split_ifs with ht
    · rw [Option.getD_some, getElem?_map_range]
      split_ifs with hs
      · rw [Option.some.injEq]
        exact patchAt_eq_iff (by omega) hdvd hw hs
      · simp
        omega
    · simp
      omega

/-- The last patch is in no token, where the scale factor does not divide the side. -/
theorem dvd_of_covers {proj : VisionProjector} {sf w : Nat} (hproj : proj.scaleFactor = sf) (hsf : 1 < sf) (hdim : 0 < proj.visionDim)
    (h : CoversGrid proj (w * w)) : sf ∣ w ∧ proj.visionDim * (sf * sf) < 2 ^ 31 := by
  obtain ⟨tokens, htokens, -, hcover⟩ := h
  have hs2 : sf * sf < 2 ^ 31 := by
    by_contra hnot
    unfold visionProjectorForwardBatch intProduct at htokens
    dsimp only at htokens
    rw [hproj, if_pos hsf, if_neg hnot] at htokens
    simp at htokens
  have hsize : proj.visionDim * (sf * sf) < 2 ^ 31 := by
    by_contra hnot
    unfold visionProjectorForwardBatch intProduct at htokens
    dsimp only at htokens
    rw [hproj, if_pos hsf, if_pos hs2, Option.bind_eq_bind, Option.bind_some, if_neg hnot] at htokens
    simp at htokens
  refine ⟨?_, hsize⟩
  rw [forwardBatch_eq hproj hsf hsize hs2 hdim, Option.some.injEq] at htokens
  by_contra hnot
  have hw : 0 < w := Nat.pos_of_ne_zero fun h0 => hnot (h0 ▸ Nat.dvd_zero sf)
  have hlast : (w - 1) / sf = w / sf := by
    have hsucc : (w - 1 + 1) / sf = _ := Nat.succ_div
    rw [show w - 1 + 1 = w by omega, if_neg hnot, Nat.add_zero] at hsucc
    exact hsucc.symm
  have hp : w * w - 1 = (w - 1) * w + (w - 1) := by
    rw [Nat.sub_mul, Nat.one_mul]
    have hle : w ≤ w * w := Nat.le_mul_of_pos_left w hw
    omega
  have hrow : (w * w - 1) / w = w - 1 := by
    rw [hp, Nat.mul_comm (w - 1) w, Nat.mul_add_div hw, Nat.div_eq_of_lt (by omega), Nat.add_zero]
  have hcol : (w * w - 1) % w = w - 1 := by
    rw [hp, Nat.mul_comm (w - 1) w, Nat.mul_add_mod, Nat.mod_eq_of_lt (by omega)]
  have hsquare : 0 < w * w := Nat.mul_pos hw hw
  have hmem := (hcover (w * w - 1) (by omega) _ _).2 ⟨rfl, rfl⟩
  rw [Nat.sqrt_eq, hproj, ← htokens, List.getD_eq_getElem?_getD, getElem?_map_range, if_neg] at hmem
  · simp at hmem
  · unfold tokenOf
    rw [hrow, hcol, hlast]
    exact not_lt.2 (Nat.le_add_right _ _)

end BitForge.Vision
