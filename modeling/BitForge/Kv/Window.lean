/-
The sliding window of `kv_cache/sliding_window.c`: the map from logical positions to physical
slots, the write head, and the number of valid entries, with the facts the attention loops rely
on. Positions, sizes and counts are C `int`s.
-/
import Mathlib.Tactic

namespace BitForge.Kv

/-- `SlidingWindow`. -/
structure SlidingWindow where
  windowSize : Int
  systemPromptLen : Int
  writeHead : Int
  wrapped : Bool
deriving DecidableEq, Repr

/-- `sw_init`. -/
def swInit (windowSize systemPromptLen : Int) : SlidingWindow :=
  { windowSize := windowSize
    systemPromptLen := systemPromptLen
    writeHead := systemPromptLen
    wrapped := false }

/-- `sw_map_position`: pinned positions map to themselves, the others into the circular region. -/
def swMapPosition (sw : SlidingWindow) (logicalPos : Int) : Int :=
  let spl := sw.systemPromptLen
  if logicalPos < spl then logicalPos
  else
    let circularSize := sw.windowSize - spl
    if circularSize ≤ 0 then spl -- degenerate case
    else
      let offset := (logicalPos - spl).tmod circularSize
      spl + offset

/-- `sw_advance`. -/
def swAdvance (sw : SlidingWindow) : SlidingWindow :=
  let spl := sw.systemPromptLen
  let circularSize := sw.windowSize - spl
  if circularSize ≤ 0 then sw
  else
    let sw := { sw with writeHead := sw.writeHead + 1 }
    if sw.writeHead ≥ sw.windowSize then { sw with writeHead := spl, wrapped := true } else sw

/-- `sw_valid_count`. -/
def swValidCount (sw : SlidingWindow) (logicalPos : Int) : Int :=
  let count := logicalPos + 1
  if count > sw.windowSize then sw.windowSize else count

/-- The logical position of step `t` of the history loops of the attention functions
(`hist_logical`, `v_hist`). -/
def histLogical (sw : SlidingWindow) (pos : Int) (t : Int) : Int :=
  let validCtx := swValidCount sw pos
  if pos ≥ validCtx then pos - validCtx + 1 + t else t

/-! ## Advancing the head moves no slot -/

@[simp] theorem swInit_windowSize (W spl : Int) : (swInit W spl).windowSize = W := rfl
@[simp] theorem swInit_systemPromptLen (W spl : Int) : (swInit W spl).systemPromptLen = spl := rfl

@[simp] theorem swAdvance_windowSize (sw : SlidingWindow) : (swAdvance sw).windowSize = sw.windowSize := by
  unfold swAdvance; dsimp only; split_ifs <;> rfl

@[simp] theorem swAdvance_systemPromptLen (sw : SlidingWindow) :
    (swAdvance sw).systemPromptLen = sw.systemPromptLen := by
  unfold swAdvance; dsimp only; split_ifs <;> rfl

/-- The map, the count and the history depend on the two sizes of a window only. -/
def SameSizes (sw sw' : SlidingWindow) : Prop :=
  sw'.windowSize = sw.windowSize ∧ sw'.systemPromptLen = sw.systemPromptLen

theorem SameSizes.refl (sw : SlidingWindow) : SameSizes sw sw := ⟨rfl, rfl⟩

theorem SameSizes.advance {sw sw' : SlidingWindow} (h : SameSizes sw sw') : SameSizes sw (swAdvance sw') :=
  ⟨by rw [swAdvance_windowSize, h.1], by rw [swAdvance_systemPromptLen, h.2]⟩

theorem SameSizes.map {sw sw' : SlidingWindow} (h : SameSizes sw sw') (L : Int) :
    swMapPosition sw' L = swMapPosition sw L := by
  unfold swMapPosition; rw [h.1, h.2]

theorem SameSizes.count {sw sw' : SlidingWindow} (h : SameSizes sw sw') (pos : Int) :
    swValidCount sw' pos = swValidCount sw pos := by
  unfold swValidCount; rw [h.1]

theorem SameSizes.hist {sw sw' : SlidingWindow} (h : SameSizes sw sw') (pos t : Int) :
    histLogical sw' pos t = histLogical sw pos t := by
  unfold histLogical; rw [h.count]

/-! ## The map and the history -/

/-- The physical slots of a valid window are its `W` slots. -/
theorem swMapPosition_range {W spl L : Int} (h0 : 0 ≤ spl) (h1 : spl < W) (hL : 0 ≤ L) :
    0 ≤ swMapPosition (swInit W spl) L ∧ swMapPosition (swInit W spl) L < W := by
  unfold swMapPosition
  dsimp only [swInit]
  split_ifs with hp hc
  · omega
  · omega
  · have hnn := Int.tmod_nonneg (W - spl) (show 0 ≤ L - spl by omega)
    have hlt := Int.tmod_lt_of_pos (L - spl) (show 0 < W - spl by omega)
    omega

/-- Before the window wraps, every position has its own slot. -/
theorem swMapPosition_lt {W spl L : Int} (h1 : spl < W) (hL : L < W) : swMapPosition (swInit W spl) L = L := by
  unfold swMapPosition
  dsimp only [swInit]
  split_ifs with hp hc
  · rfl
  · omega
  · rw [Int.tmod_eq_of_lt (by omega) (by omega)]; omega

/-- Without pinned positions the window is a ring. -/
theorem swMapPosition_ring {W : Int} (h1 : 0 < W) {L : Int} (hL : 0 ≤ L) : swMapPosition (swInit W 0) L = L % W := by
  unfold swMapPosition
  dsimp only [swInit]
  rw [if_neg (by omega), if_neg (by omega), Int.sub_zero, Int.sub_zero, Int.tmod_eq_emod_of_nonneg hL, Int.zero_add]

/-- The attended history is the last `min (pos + 1) W` positions up to `pos`, in order. -/
theorem histLogical_eq (W spl pos t : Int) :
    histLogical (swInit W spl) pos t = if pos < W then t else pos - W + 1 + t := by
  unfold histLogical swValidCount
  dsimp only [swInit]
  split_ifs <;> omega

theorem histLogical_range {W spl pos t : Int} (ht0 : 0 ≤ t)
    (ht : t < swValidCount (swInit W spl) pos) :
    0 ≤ histLogical (swInit W spl) pos t ∧ pos - W < histLogical (swInit W spl) pos t ∧
      histLogical (swInit W spl) pos t ≤ pos := by
  rw [histLogical_eq]
  unfold swValidCount at ht
  dsimp only [swInit] at ht
  split_ifs at ht ⊢ <;> omega

/-- Positions at distance less than `W` have different slots of a ring of `W`. -/
theorem emod_ne_of_near {W a b : Int} (hab : a < b) (hd : b < a + W) : a % W ≠ b % W := by
  intro h
  have hdvd : W ∣ b - a := Int.dvd_of_emod_eq_zero (by rw [Int.sub_emod, h]; simp)
  have := Int.le_of_dvd (by omega) hdvd
  omega

end BitForge.Kv
