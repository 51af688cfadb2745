/-
The rotary embeddings of `rope.c`, `mla_attention.c` and `qwen35_attention.c`, in exact arithmetic: a score of a rotated
query and a rotated key depends on their positions only by the difference, with or without YaRN, so a context may stand at
any place of the sequence.
-/
import Mathlib.Analysis.SpecialFunctions.Log.Basic
import Mathlib.Analysis.SpecialFunctions.Trigonometric.Basic
import BitForge.Lib.Rotation

namespace BitForge.Transformer

open Lib

variable {K : Type} [Field K]

/-- `cosf`, `sinf` and `logf`. -/
structure AngleOps (K : Type) where
  cos : K → K
  sin : K → K
  log : K → K

/-- The parameters of YaRN; `corr` is an array of two. -/
structure Yarn (K : Type) where
  freqScale : K
  extFactor : K
  attnFactor : K
  corr0 : K
  corr1 : K

/-- `rope_yarn_ramp_r` of `rope.c`, and `rope_yarn_ramp` of `mla_attention.c`. -/
def ropeYarnRamp [LinearOrder K] (low high : K) (i0 : Nat) : K :=
  let y := (((i0 / 2 : Nat) : K) - low) / (if high - low > 1 / (1000 : Nat) then high - low else 1 / (1000 : Nat))
  let y := if y < 0 then 0 else y
  let y := if y > 1 then 1 else y
  1 - y

section

variable [LinearOrder K]

/-- `theta` of the pair `i`. -/
def ropeTheta (Y : Yarn K) (freq : Nat → K) (pos : Int) (i : Nat) : K :=
  let thetaExtrap := pos * freq i
  let thetaInterp := Y.freqScale * thetaExtrap
  if Y.extFactor ≠ 0 then
    let ramp := ropeYarnRamp Y.corr0 Y.corr1 (2 * i) * Y.extFactor
    thetaInterp * (1 - ramp) + thetaExtrap * ramp
  else thetaInterp

/-- `mscale`. -/
def ropeMscale (A : AngleOps K) (Y : Yarn K) : K :=
  if Y.extFactor ≠ 0 then Y.attnFactor * (1 + 1 / (10 : Nat) * A.log (1 / Y.freqScale)) else Y.attnFactor

/-- `rope_apply_head_yarn` of `rope.c`, and `rope_apply_yarn` of `mla_attention.c`, on the `d` components from `off` on. -/
def ropeApplyHeadYarn (A : AngleOps K) (Y : Yarn K) (freq : Nat → K) (d : Nat) (pos : Int) (off : Nat)
    (v : Nat → K) : Nat → K :=
  rotatePairs (fun i => off + 2 * i) (fun i => off + (2 * i + 1))
    (fun i => A.cos (ropeTheta Y freq pos i) * ropeMscale A Y)
    (fun i => A.sin (ropeTheta Y freq pos i) * ropeMscale A Y) v (d / 2)

end

/-- A loop over heads of `headDim` components. -/
def eachHead (headDim : Nat) (f : Nat → (Nat → K) → Nat → K) (v : Nat → K) : Nat → Nat → K
  | 0 => v
  | h + 1 => f (h * headDim) (eachHead headDim f v h)

/-- `apply_rope`: the queries and the keys. -/
def applyRope [LinearOrder K] (A : AngleOps K) (Y : Yarn K) (freq : Nat → K) (headDim : Nat) (pos : Int)
    (nHeads nKvHeads : Nat) (q k : Nat → K) : (Nat → K) × (Nat → K) :=
  (eachHead headDim (ropeApplyHeadYarn A Y freq headDim pos) q nHeads,
    eachHead headDim (ropeApplyHeadYarn A Y freq headDim pos) k nKvHeads)

/-- `rope_apply_neox_partial`, from the component `off` on. -/
def ropeApplyNeoxPartial (A : AngleOps K) (freq : Nat → K) (ropeDim : Nat) (pos : Int) (off : Nat)
    (v : Nat → K) : Nat → K :=
  rotatePairs (fun i => off + i) (fun i => off + (i + ropeDim / 2)) (fun i => A.cos (pos * freq i))
    (fun i => A.sin (pos * freq i)) v (ropeDim / 2)

/-- The part of a vector that starts at `off`. -/
def part (v : Nat → K) (off : Nat) (j : Nat) : K := v (off + j)

/-! ## One head -/

theorem adjacent_pairing (d : Nat) : Pairing (fun i => 2 * i) (fun i => 2 * i + 1) (d / 2) d where
  fst_lt i hi := by omega
  snd_lt i hi := by omega
  fst_ne_snd i _ j _ := by omega
  fst_inj i _ j _ h := by omega
  snd_inj i _ j _ h := by omega

theorem halves_pairing {ropeDim d : Nat} (hd : ropeDim ≤ d) :
    Pairing (fun i => i) (fun i => i + ropeDim / 2) (ropeDim / 2) d where
  fst_lt i hi := by omega
  snd_lt i hi := by omega
  fst_ne_snd i _ j _ := by omega
  fst_inj i _ j _ h := h
  snd_inj i _ j _ h := by omega

section

variable [LinearOrder K] {A : AngleOps K}

/-- With and without YaRN the angle is proportional to the position. -/
theorem ropeTheta_sub (Y : Yarn K) (freq : Nat → K) (m n p : Int) (i : Nat) :
    ropeTheta Y freq (m + p) i - ropeTheta Y freq (n + p) i = ropeTheta Y freq m i - ropeTheta Y freq n i := by
  unfold ropeTheta
  dsimp only
  push_cast
  split <;> ring

theorem part_ropeApplyHeadYarn (Y : Yarn K) (freq : Nat → K) (d : Nat) (pos : Int) (off : Nat) (v : Nat → K) :
    part (ropeApplyHeadYarn A Y freq d pos off v) off =
      rotatePairs (fun i => 2 * i) (fun i => 2 * i + 1) (fun i => A.cos (ropeTheta Y freq pos i) * ropeMscale A Y)
        (fun i => A.sin (ropeTheta Y freq pos i) * ropeMscale A Y) (part v off) (d / 2) := by
  funext j
  exact rotatePairs_offset off j (d / 2)

/-- A query and a key anywhere, as in the attention with a latent cache, where the rotated parts of the queries stand behind
others and one rotated key serves all heads. -/
theorem ropeApplyHeadYarn_relative (hT : IsTrig A.cos A.sin) (Y : Yarn K) (freq : Nat → K) (d : Nat) (q k : Nat → K)
    (offQ offK : Nat) (m n p : Int) :
    dotProd (part (ropeApplyHeadYarn A Y freq d (m + p) offQ q) offQ)
        (part (ropeApplyHeadYarn A Y freq d (n + p) offK k) offK) d =
      dotProd (part (ropeApplyHeadYarn A Y freq d m offQ q) offQ) (part (ropeApplyHeadYarn A Y freq d n offK k) offK) d := by
  simp only [part_ropeApplyHeadYarn]
  exact dot_rotatePairs_congr hT (adjacent_pairing d) (fun _ => ropeMscale A Y)
    (fun i _ => ropeTheta_sub Y freq m n p i) _ _

theorem ropeApplyHeadYarn_other (Y : Yarn K) (freq : Nat → K) (d : Nat) (pos : Int) (off : Nat) (v : Nat → K) {a : Nat}
    (ha : a < off ∨ off + d ≤ a) : ropeApplyHeadYarn A Y freq d pos off v a = v a :=
  rotatePairs_other (d / 2) fun i hi => by omega

end

/-! ## All heads -/

section

variable {headDim : Nat} {f : Nat → (Nat → K) → Nat → K}

omit [Field K] in
/-- What stands behind the heads is unchanged. -/
theorem eachHead_behind (hout : ∀ off v a, a < off ∨ off + headDim ≤ a → f off v a = v a) (v : Nat → K) :
    ∀ (n a : Nat), n * headDim ≤ a → eachHead headDim f v n a = v a
  | 0, _, _ => rfl
  | n + 1, a, ha => by
    rw [Nat.succ_mul] at ha
    unfold eachHead
    rw [hout _ _ _ (.inr ha)]
    exact eachHead_behind hout v n a (by omega)

omit [Field K] in
/-- Each head is treated as if it were the only one. -/
theorem part_eachHead (hout : ∀ off v a, a < off ∨ off + headDim ≤ a → f off v a = v a)
    {g : (Nat → K) → Nat → K} (hin : ∀ off v, part (f off v) off = g (part v off)) (v : Nat → K) {h : Nat} :
    ∀ {n : Nat}, h < n → ∀ j < headDim, part (eachHead headDim f v n) (h * headDim) j = g (part v (h * headDim)) j
  | n + 1, hlt, j, hj => by
    unfold eachHead
    rcases Nat.lt_succ_iff_lt_or_eq.1 hlt with hlt | rfl
    · have hmul : (h + 1) * headDim ≤ n * headDim := Nat.mul_le_mul_right headDim hlt
      rw [Nat.succ_mul] at hmul
      show f (n * headDim) (eachHead headDim f v n) (h * headDim + j) = _
      rw [hout _ _ _ (.inl (by omega))]
      exact part_eachHead hout hin v hlt j hj
    · rw [hin]
      have hbehind : part (eachHead headDim f v h) (h * headDim) = part v (h * headDim) := by
        funext i
        exact eachHead_behind hout v h _ (Nat.le_add_right _ i)
      rw [hbehind]

end

theorem dot_congr {q q' k k' : Nat → K} {d : Nat} (hq : ∀ j < d, q j = q' j) (hk : ∀ j < d, k j = k' j) :
    dotProd q k d = dotProd q' k' d :=
  Finset.sum_congr rfl fun j hj => by rw [hq j (Finset.mem_range.1 hj), hk j (Finset.mem_range.1 hj)]

section

variable [LinearOrder K] {A : AngleOps K}

/-- A query head of `apply_rope` is the one head rotated on its own. -/
theorem applyRope_query (Y : Yarn K) (freq : Nat → K) (headDim : Nat) (pos : Int) (nHeads nKvHeads : Nat) (q k : Nat → K)
    {h : Nat} (hh : h < nHeads) {j : Nat} (hj : j < headDim) :
    part (applyRope A Y freq headDim pos nHeads nKvHeads q k).1 (h * headDim) j =
      part (ropeApplyHeadYarn A Y freq headDim pos (h * headDim) q) (h * headDim) j := by
  rw [part_ropeApplyHeadYarn]
  exact part_eachHead (f := ropeApplyHeadYarn A Y freq headDim pos) (g := fun w => rotatePairs (fun i => 2 * i)
      (fun i => 2 * i + 1) (fun i => A.cos (ropeTheta Y freq pos i) * ropeMscale A Y)
      (fun i => A.sin (ropeTheta Y freq pos i) * ropeMscale A Y) w (headDim / 2))
    (fun off v _ ha => ropeApplyHeadYarn_other Y freq headDim pos off v ha)
    (fun off v => part_ropeApplyHeadYarn Y freq headDim pos off v) q hh j hj

theorem applyRope_key (Y : Yarn K) (freq : Nat → K) (headDim : Nat) (pos : Int) (nHeads nKvHeads : Nat) (q k : Nat → K)
    {g : Nat} (hg : g < nKvHeads) {j : Nat} (hj : j < headDim) :
    part (applyRope A Y freq headDim pos nHeads nKvHeads q k).2 (g * headDim) j =
      part (ropeApplyHeadYarn A Y freq headDim pos (g * headDim) k) (g * headDim) j := by
  rw [part_ropeApplyHeadYarn]
  exact part_eachHead (f := ropeApplyHeadYarn A Y freq headDim pos) (g := fun w => rotatePairs (fun i => 2 * i)
      (fun i => 2 * i + 1) (fun i => A.cos (ropeTheta Y freq pos i) * ropeMscale A Y)
      (fun i => A.sin (ropeTheta Y freq pos i) * ropeMscale A Y) w (headDim / 2))
    (fun off v _ ha => ropeApplyHeadYarn_other Y freq headDim pos off v ha)
    (fun off v => part_ropeApplyHeadYarn Y freq headDim pos off v) k hg j hj

/-- The score of a query head that is rotated at one position and a key head that is rotated at another depends on the
difference of the positions, for every layout of the heads and all parameters of YaRN. -/
theorem applyRope_relative (hT : IsTrig A.cos A.sin) (Y : Yarn K) (freq : Nat → K) (headDim nHeads nKvHeads : Nat)
    (q k q' k' : Nat → K) {h g : Nat} (hh : h < nHeads) (hg : g < nKvHeads) (m n p : Int) :
    dotProd (part (applyRope A Y freq headDim (m + p) nHeads nKvHeads q k').1 (h * headDim))
        (part (applyRope A Y freq headDim (n + p) nHeads nKvHeads q' k).2 (g * headDim)) headDim =
      dotProd (part (applyRope A Y freq headDim m nHeads nKvHeads q k').1 (h * headDim))
        (part (applyRope A Y freq headDim n nHeads nKvHeads q' k).2 (g * headDim)) headDim := by
  have hscore : ∀ i j : Int, dotProd (part (applyRope A Y freq headDim i nHeads nKvHeads q k').1 (h * headDim))
      (part (applyRope A Y freq headDim j nHeads nKvHeads q' k).2 (g * headDim)) headDim =
        dotProd (part (ropeApplyHeadYarn A Y freq headDim i (h * headDim) q) (h * headDim))
          (part (ropeApplyHeadYarn A Y freq headDim j (g * headDim) k) (g * headDim)) headDim := fun i j =>
    dot_congr (fun _ hj => applyRope_query Y freq headDim i nHeads nKvHeads q k' hh hj)
      (fun _ hj => applyRope_key Y freq headDim j nHeads nKvHeads q' k hg hj)
  rw [hscore, hscore]
  exact ropeApplyHeadYarn_relative hT Y freq headDim q k (h * headDim) (g * headDim) m n p

end

noncomputable def realAngles : AngleOps ℝ := ⟨Real.cos, Real.sin, Real.log⟩

theorem realAngles_isTrig : IsTrig realAngles.cos realAngles.sin := ⟨Real.cos_sub, Real.sin_sub⟩

/-- Two query heads and one key head of three components, with YaRN. -/
theorem applyRope_relative_three :
    dotProd (part (applyRope realAngles ⟨1 / 4, 1, 1, 0, 1⟩ (fun _ => 1) 3 (5 + 7) 2 1 (fun j => j) fun _ => 0).1 (1 * 3))
        (part (applyRope realAngles ⟨1 / 4, 1, 1, 0, 1⟩ (fun _ => 1) 3 (2 + 7) 2 1 (fun _ => 0) fun j => j).2 (0 * 3))
        3 =
      dotProd (part (applyRope realAngles ⟨1 / 4, 1, 1, 0, 1⟩ (fun _ => 1) 3 5 2 1 (fun j => j) fun _ => 0).1 (1 * 3))
        (part (applyRope realAngles ⟨1 / 4, 1, 1, 0, 1⟩ (fun _ => 1) 3 2 2 1 (fun _ => 0) fun j => j).2 (0 * 3)) 3 :=
  applyRope_relative realAngles_isTrig _ _ 3 2 1 _ _ _ _ (by decide) (by decide) 5 2 7

/-! ## Partial rotation -/

/-- Where only the first components of a head are rotated, and in halves, the score over the whole head depends on the
difference of the positions too. -/
theorem ropeApplyNeoxPartial_relative {A : AngleOps K} (hT : IsTrig A.cos A.sin) (freq : Nat → K) {ropeDim headDim : Nat}
    (hdim : ropeDim ≤ headDim) (q k : Nat → K) (offQ offK : Nat) (m n p : Int) :
    dotProd (part (ropeApplyNeoxPartial A freq ropeDim (m + p) offQ q) offQ)
        (part (ropeApplyNeoxPartial A freq ropeDim (n + p) offK k) offK) headDim =
      dotProd (part (ropeApplyNeoxPartial A freq ropeDim m offQ q) offQ)
        (part (ropeApplyNeoxPartial A freq ropeDim n offK k) offK) headDim := by
  have hpart : ∀ (pos : Int) (off : Nat) (v : Nat → K), part (ropeApplyNeoxPartial A freq ropeDim pos off v) off =
      rotatePairs (fun i => i) (fun i => i + ropeDim / 2) (fun i => A.cos (pos * freq i) * 1)
        (fun i => A.sin (pos * freq i) * 1) (part v off) (ropeDim / 2) := by
    intro pos off v
    simp only [mul_one]
    funext j
    exact rotatePairs_offset off j (ropeDim / 2)
  simp only [hpart]
  refine dot_rotatePairs_congr hT (halves_pairing hdim) (fun _ => 1) (fun i _ => ?_) _ _
  push_cast
  ring

/-- Four of six components, in halves. -/
theorem ropeApplyNeoxPartial_relative_six :
    dotProd (part (ropeApplyNeoxPartial realAngles (fun i => 1 / (i + 1)) 4 (5 + 7) 6 fun j => j) 6)
        (part (ropeApplyNeoxPartial realAngles (fun i => 1 / (i + 1)) 4 (2 + 7) 0 fun j => j) 0) 6 =
      dotProd (part (ropeApplyNeoxPartial realAngles (fun i => 1 / (i + 1)) 4 5 6 fun j => j) 6)
        (part (ropeApplyNeoxPartial realAngles (fun i => 1 / (i + 1)) 4 2 0 fun j => j) 0) 6 :=
  ropeApplyNeoxPartial_relative realAngles_isTrig _ (by decide) _ _ 6 0 5 2 7

end BitForge.Transformer
