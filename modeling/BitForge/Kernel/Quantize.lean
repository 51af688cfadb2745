/-
The activation quantizers: `quantize_to_q8k`, and `quantize_row_to_i8` with its vector versions and the sums of its codes.
Floats are numbers of any ordered field with a floor.
-/
import BitForge.Kernel.Q2Vnni
import BitForge.Lib.Rounding
import BitForge.Lib.Writes

namespace BitForge.Quantize

open Finset BitForge.Lib BitForge.Lib.Rounding BitForge.Lib.Simd BitForge.Lib.Writes BitForge.Q2Vnni

section

variable {K : Type} [Field K] [LinearOrder K] [FloorRing K]

/-! ## The largest absolute value -/

/-- The scalar loop over `t` elements, from `i` on. -/
def absMaxLoop (x : Nat → K) (absMax : K) (i : Nat) : Nat → K
  | 0 => absMax
  | t + 1 =>
    let m := absMaxLoop x absMax i t
    let a := if x (i + t) < 0 then -x (i + t) else x (i + t)
    if a > m then a else m

/-- `vmax` after a number of steps of `w` lanes. -/
def vmaxLoop (w : Nat) (x : Nat → K) : Nat → Nat → K
  | 0 => fun _ => 0
  | c + 1 => fun l => max (vmaxLoop w x c l) |x (w * c + l)|

/-- The horizontal maximum of 8 lanes. -/
def hmax8 (vmax : Nat → K) : K :=
  let m4 := fun l => max (vmax l) (vmax (4 + l))
  let m2 := fun l => max (m4 l) (m4 (2 + l))
  max (m2 0) (m2 1)

/-- `_mm512_reduce_max_ps` -/
def reduceMaxPs (vmax : Nat → K) : K := (List.range 15).foldl (fun m l => max m (vmax (l + 1))) (vmax 0)

/-- `abs_max` of a vector version: the lanes first, then the tail. -/
def vecAbsMax (w : Nat) (hmax : (Nat → K) → K) (x : Nat → K) (n : Nat) : K :=
  absMaxLoop x (hmax (vmaxLoop w x (n / w))) (w * (n / w)) (n - w * (n / w))

/-! ## `quantize_row_to_i8` -/

/-- The code of an element. -/
def codeI8 (invScale x : K) : Int :=
  let v := x * invScale
  wrap 8 (trunc (if v > 127 then 127 else if v < -127 then -127 else v))

/-- `quantize_row_to_i8`: the scale and the codes. -/
def quantizeRowToI8 (x : Nat → K) (n : Nat) : K × List Int :=
  let absMax := absMaxLoop x 0 0 n
  if absMax = 0 then (0, List.replicate n 0)
  else (absMax / 127, (List.range n).map fun i => codeI8 (127 / absMax) (x i))

/-- `i32` of a vector step. -/
def lanesI32 (invScale : K) (x : Nat → K) : Nat → Int := fun l => cvtEpi32 (trunc (max (min (x l * invScale) 127) (-127)))

/-- The bytes of an AVX-512 step. -/
def lanesAvx512 (invScale : K) (x : Nat → K) : Nat → Int := fun l => wrap 8 (lanesI32 invScale x l)

/-- The bytes of an AVX2 step. -/
def lanesAvx2 (invScale : K) (x : Nat → K) : Nat → Int :=
  let i32 := lanesI32 invScale x
  let i16 := packsEpi32 i32 fun l => i32 (4 + l)
  packsEpi16 i16 fun _ => 0

/-- A vector version: both passes in steps of `w` lanes, with a scalar tail. -/
def quantizeVec (w : Nat) (hmax : (Nat → K) → K) (lanes : K → (Nat → K) → Nat → Int) (x : Nat → K) (n : Nat) : K × List Int :=
  let absMax := vecAbsMax w hmax x n
  if absMax = 0 then (0, List.replicate n 0)
  else
    let invScale := 127 / absMax
    (absMax / 127,
      (List.range (n / w)).flatMap (fun p => (List.range w).map (lanes invScale fun l => x (w * p + l))) ++
        (List.range (n - w * (n / w))).map fun t => codeI8 invScale (x (w * (n / w) + t)))

/-- `quantize_row_to_i8_avx512`; without AVX-512 it is the scalar version. -/
def quantizeRowToI8Avx512 (hasAvx512 : Bool) (x : Nat → K) (n : Nat) : K × List Int :=
  if hasAvx512 then quantizeVec 16 reduceMaxPs lanesAvx512 x n else quantizeRowToI8 x n

/-- `quantize_row_to_i8_avx2` -/
def quantizeRowToI8Avx2 (hasAvx2 : Bool) (x : Nat → K) (n : Nat) : K × List Int :=
  if hasAvx2 then quantizeVec 8 hmax8 lanesAvx2 x n else quantizeRowToI8 x n

/-! ## `sum_i8_avx512` -/

/-- The accumulators after a number of steps of 64 bytes. -/
def accLoop (arr : Nat → Int) : Nat → Nat → Int
  | 0 => fun _ => 0
  | c + 1 => fun l =>
    let acc := wrap 32 (accLoop arr c l + arr (64 * c + l))
    let acc := wrap 32 (acc + arr (64 * c + 16 + l))
    let acc := wrap 32 (acc + arr (64 * c + 32 + l))
    wrap 32 (acc + arr (64 * c + 48 + l))

/-- The scalar tail over `t` elements, from `i` on. -/
def sumLoop (arr : Nat → Int) (total : Int) (i : Nat) : Nat → Int
  | 0 => total
  | t + 1 => wrap 32 (sumLoop arr total i t + arr (i + t))

/-- `sum_i8_avx512` -/
def sumI8Avx512 (hasAvx512 : Bool) (arr : Nat → Int) (n : Nat) : Int :=
  if hasAvx512 then sumLoop arr (reduceAddEpi32 (accLoop arr (n / 64))) (64 * (n / 64)) (n - 64 * (n / 64)) else sumI8 arr n

/-! ## `quantize_to_q8k` -/

/-- `TnQ8KActBlock` -/
structure Q8KActBlock (K : Type) where
  d : K
  qs : List Int
  bsums : List Int

/-- The block of a zero vector. -/
def zeroBlock : Q8KActBlock K where
  d := 0
  qs := List.replicate 256 0
  bsums := List.replicate 16 0

/-- The code of an element in the scalar body. -/
def codeQ8K (inv x : K) : Int :=
  let v := x * inv
  let v := if v > 127 then 127 else v
  let v := if v < -127 then -127 else v
  wrap 8 (roundEven v)

/-- `bsum` after a number of codes. -/
def bsumLoop (q : Nat → Int) : Nat → Int
  | 0 => 0
  | k + 1 => wrap 16 (bsumLoop q k + q k)

/-- The codes of 16 elements and their sum, in the scalar body. -/
def groupScalar (inv : K) (xj : Nat → K) : List Int × Int :=
  let q := fun k => codeQ8K inv (xj k)
  ((List.range 16).map q, bsumLoop q 16)

/-- The codes of 16 elements and their sum, in the AVX2 body. -/
def groupAvx2 (inv : K) (xj : Nat → K) : List Int × Int :=
  let v := fun l => ((roundEven (min (max (xj l * inv) (-127)) 127) : Int) : K)
  let i32 := fun l => cvtEpi32 (roundEven (v l))
  let i16₀ := packsEpi32 i32 fun l => i32 (4 + l)
  let i16₁ := packsEpi32 (fun l => i32 (8 + l)) fun l => i32 (12 + l)
  let i8 := packsEpi16 i16₀ i16₁
  let sum16 := addEpi16 i16₀ i16₁
  let sum16 := haddEpi16 sum16 fun _ => 0
  let sum16 := haddEpi16 sum16 fun _ => 0
  let sum16 := haddEpi16 sum16 fun _ => 0
  ((List.range 16).map i8, sum16 0)

/-- A block of 256 elements, with either body for its groups. -/
def quantizeBlock (group : K → (Nat → K) → List Int × Int) (absMax : K) (xb : Nat → K) : Q8KActBlock K :=
  if absMax = 0 then zeroBlock
  else
    let inv := 127 / absMax
    { d := absMax / 127
      qs := (List.range 16).flatMap fun j => (group inv fun k => xb (16 * j + k)).1
      bsums := (List.range 16).map fun j => (group inv fun k => xb (16 * j + k)).2 }

/-- `quantize_to_q8k` -/
def quantizeToQ8K (hasAvx2 : Bool) (x : Nat → K) (nBlocks : Nat) : List (Q8KActBlock K) :=
  (List.range nBlocks).map fun b =>
    let xb := fun i => x (256 * b + i)
    if hasAvx2 then quantizeBlock groupAvx2 (hmax8 (vmaxLoop 8 xb 32)) xb
    else quantizeBlock groupScalar (absMaxLoop xb 0 0 256) xb

/-! ## What the kernels assume -/

/-- The codes of a row: of one byte and never -128, and off by less than a step; a zero vector has zeros only. -/
structure IsI8 (x : Nat → K) (n : Nat) (scale : K) (q : List Int) : Prop where
  length : q.length = n
  codes : ∀ i < n, -127 ≤ q.getD i 0 ∧ q.getD i 0 ≤ 127
  zero : (∀ i < n, x i = 0) → scale = 0 ∧ ∀ i < n, q.getD i 0 = 0
  error : (∃ i < n, x i ≠ 0) → ∀ i < n, |x i - scale * q.getD i 0| < scale

/-- The block of 256 elements; sums of some codes of a group, in whatever order they are added, are 16-bit numbers. -/
structure IsQ8K (x : Nat → K) (ob : Q8KActBlock K) : Prop where
  length : ob.qs.length = 256 ∧ ob.bsums.length = 16
  codes : ∀ i < 256, -127 ≤ ob.qs.getD i 0 ∧ ob.qs.getD i 0 ≤ 127
  error : ∀ i < 256, |x i - ob.d * ob.qs.getD i 0| ≤ ob.d / 2
  bsums : ∀ j < 16, ob.bsums.getD j 0 = ∑ k ∈ range 16, ob.qs.getD (16 * j + k) 0
  fits : ∀ j < 16, ∀ s ⊆ range 16, -2 ^ 15 ≤ ∑ k ∈ s, ob.qs.getD (16 * j + k) 0 ∧ ∑ k ∈ s, ob.qs.getD (16 * j + k) 0 < 2 ^ 15

end

/-! ## The largest absolute value, by its upper bounds -/

section

variable {K : Type} [LinearOrder K]

theorem hmax8_le (vmax : Nat → K) (b : K) : hmax8 vmax ≤ b ↔ ∀ l < 8, vmax l ≤ b := by
  unfold hmax8
  simp only [max_le_iff]
  constructor
  · rintro h l hl
    interval_cases l <;> tauto
  · intro h
    simp [h]

theorem reduceMaxPs_le (vmax : Nat → K) (b : K) : reduceMaxPs vmax ≤ b ↔ ∀ l < 16, vmax l ≤ b := by
  have hfold : ∀ t : Nat, (List.range t).foldl (fun m l => max m (vmax (l + 1))) (vmax 0) ≤ b ↔ ∀ l < t + 1, vmax l ≤ b := by
    intro t
    induction t with
    | zero => simp
    | succ t ih =>
      rw [List.range_succ, List.foldl_append, List.foldl_cons, List.foldl_nil, max_le_iff, ih]
      exact Nat.forall_lt_succ_right.symm
  exact hfold 15

variable [Field K] {x : Nat → K}

theorem vmaxLoop_le {w l : Nat} {b : K} : ∀ c : Nat, vmaxLoop w x c l ≤ b ↔ 0 ≤ b ∧ ∀ p < c, |x (w * p + l)| ≤ b
  | 0 => by simp [vmaxLoop]
  | c + 1 => by
    have hmax : vmaxLoop w x (c + 1) l = max (vmaxLoop w x c l) |x (w * c + l)| := rfl
    rw [hmax, max_le_iff, vmaxLoop_le c, Nat.forall_lt_succ_right, and_assoc]

variable [IsStrictOrderedRing K]

theorem absMaxLoop_le {m b : K} {i : Nat} : ∀ t : Nat, absMaxLoop x m i t ≤ b ↔ m ≤ b ∧ ∀ l < t, |x (i + l)| ≤ b
  | 0 => by simp [absMaxLoop]
  | t + 1 => by
    have habs : (if x (i + t) < 0 then -x (i + t) else x (i + t)) = |x (i + t)| := by
      split
      · next hneg => exact (abs_of_neg hneg).symm
      · next hpos => exact (abs_of_nonneg (not_lt.1 hpos)).symm
    have hmax : absMaxLoop x m i (t + 1) = max |x (i + t)| (absMaxLoop x m i t) := by
      show (if (if x (i + t) < 0 then -x (i + t) else x (i + t)) > absMaxLoop x m i t then
        if x (i + t) < 0 then -x (i + t) else x (i + t) else absMaxLoop x m i t) = _
      rw [habs]
      split
      · next hgt => exact (max_eq_left hgt.le).symm
      · next hle => exact (max_eq_right (not_lt.1 hle)).symm
    rw [hmax, max_le_iff, absMaxLoop_le t, Nat.forall_lt_succ_right]
    tauto

/-- A vector version finds the same maximum. -/
theorem vecAbsMax_eq {w : Nat} (hw : 0 < w) {hmax : (Nat → K) → K} (hle : ∀ v b, hmax v ≤ b ↔ ∀ l < w, v l ≤ b) (n : Nat) :
    vecAbsMax w hmax x n = absMaxLoop x 0 0 n := by
  refine eq_of_forall_ge_iff fun b => ?_
  have hpieces := @forall_pieces (fun i => |x i| ≤ b) w hw n
  unfold vecAbsMax
  simp only [absMaxLoop_le, hle, vmaxLoop_le, Nat.zero_add]
  rw [← hpieces]
  constructor
  · rintro ⟨hlanes, htail⟩
    exact ⟨(hlanes 0 hw).1, fun l hl => (hlanes l hl).2, htail⟩
  · rintro ⟨h0, hlanes, htail⟩
    exact ⟨fun l hl => ⟨h0, hlanes l hl⟩, htail⟩

theorem abs_le_absMax {n i : Nat} (hi : i < n) : |x i| ≤ absMaxLoop x 0 0 n := by
  have hbound := ((absMaxLoop_le (m := 0) (b := absMaxLoop x 0 0 n) n).1 le_rfl).2 i hi
  rwa [Nat.zero_add] at hbound

theorem absMax_nonneg (n : Nat) : 0 ≤ absMaxLoop x 0 0 n :=
  ((absMaxLoop_le (m := 0) (b := absMaxLoop x 0 0 n) n).1 le_rfl).1

theorem absMax_eq_zero {n : Nat} : absMaxLoop x 0 0 n = 0 ↔ ∀ i < n, x i = 0 := by
  constructor
  · intro h i hi
    have habs : |x i| ≤ absMaxLoop x 0 0 n := abs_le_absMax hi
    rw [h] at habs
    exact abs_nonpos_iff.1 habs
  · intro h
    refine le_antisymm ((absMaxLoop_le n).2 ⟨le_rfl, fun i hi => ?_⟩) (absMax_nonneg n)
    rw [Nat.zero_add, h i hi, abs_zero]

/-! ## A code -/

/-- Scaled by the largest absolute value, every element is within the range of the codes. -/
theorem scaled_mem {a m : K} (hm : 0 < m) (ha : |a| ≤ m) : -127 ≤ a * (127 / m) ∧ a * (127 / m) ≤ 127 := by
  obtain ⟨hlo, hhi⟩ := abs_le.1 ha
  have heq : a * (127 / m) = 127 * (a / m) := by ring
  have hquot : -1 ≤ a / m ∧ a / m ≤ 1 := ⟨by rw [le_div_iff₀ hm]; linarith, by rw [div_le_iff₀ hm]; linarith⟩
  rw [heq]
  constructor <;> linarith

/-- The error of a code is that of the rounding, in steps. -/
theorem error_eq {a m : K} (hm : 0 < m) (q : Int) : |a - m / 127 * q| = m / 127 * |a * (127 / m) - q| := by
  have hfactor : a - m / 127 * q = m / 127 * (a * (127 / m) - q) := by
    field_simp
  rw [hfactor, abs_mul, abs_of_pos (by positivity)]

variable [FloorRing K]

theorem trunc_code {v : K} (hv : -127 ≤ v ∧ v ≤ 127) : -127 ≤ trunc v ∧ trunc v ≤ 127 := by
  exact trunc_mem (by push_cast; exact hv.1) (by push_cast; exact hv.2)

theorem roundEven_code {v : K} (hv : -127 ≤ v ∧ v ≤ 127) : -127 ≤ roundEven v ∧ roundEven v ≤ 127 := by
  exact roundEven_mem (by push_cast; exact hv.1) (by push_cast; exact hv.2)

theorem codeI8_eq {inv a : K} (hv : -127 ≤ a * inv ∧ a * inv ≤ 127) : codeI8 inv a = trunc (a * inv) := by
  have hcode := trunc_code hv
  unfold codeI8
  dsimp only
  rw [if_neg (not_lt.2 hv.2), if_neg (not_lt.2 hv.1), wrap_eq (by omega) (by omega)]

theorem codeQ8K_eq {inv a : K} (hv : -127 ≤ a * inv ∧ a * inv ≤ 127) : codeQ8K inv a = roundEven (a * inv) := by
  have hcode := roundEven_code hv
  unfold codeQ8K
  dsimp only
  rw [if_neg (not_lt.2 hv.2), if_neg (not_lt.2 hv.1), wrap_eq (by omega) (by omega)]

theorem lanesI32_eq {inv : K} {l : Nat} (hv : -127 ≤ x l * inv ∧ x l * inv ≤ 127) : lanesI32 inv x l = trunc (x l * inv) := by
  have hcode := trunc_code hv
  unfold lanesI32
  rw [min_eq_left hv.2, max_eq_left hv.1, cvtEpi32_eq (by omega) (by omega)]

theorem lanesAvx512_eq {inv : K} {l : Nat} (hv : -127 ≤ x l * inv ∧ x l * inv ≤ 127) : lanesAvx512 inv x l = codeI8 inv (x l) := by
  have hcode := trunc_code hv
  unfold lanesAvx512
  rw [lanesI32_eq hv, codeI8_eq hv, wrap_eq (by omega) (by omega)]

/-- Packing leaves a code as it is. -/
theorem saturate_code {q : Int} (hq : -127 ≤ q ∧ q ≤ 127) : saturate 8 (saturate 16 q) = q := by
  have h16 : saturate 16 q = q := saturate_eq (by omega) (by omega)
  rw [h16, saturate_eq (by omega) (by omega)]

theorem lanesAvx2_eq {inv : K} {l : Nat} (hl : l < 8) (hv : -127 ≤ x l * inv ∧ x l * inv ≤ 127) :
    lanesAvx2 inv x l = codeI8 inv (x l) := by
  have hhalves : (if l < 4 then lanesI32 inv x l else lanesI32 inv x (4 + (l - 4))) = lanesI32 inv x l := by
    split
    · rfl
    · rw [Nat.add_sub_cancel' (by omega)]
  unfold lanesAvx2 packsEpi16 packsEpi32
  dsimp only
  rw [if_pos hl, hhalves, lanesI32_eq hv, codeI8_eq hv, saturate_code (trunc_code hv)]

/-! ## `quantize_row_to_i8` -/

/-- A vector version whose lanes give the codes gives the row of the scalar version. -/
theorem quantizeVec_eq {w : Nat} (hw : 0 < w) {hmax : (Nat → K) → K} (hle : ∀ v b, hmax v ≤ b ↔ ∀ l < w, v l ≤ b)
    {lanes : K → (Nat → K) → Nat → Int}
    (hlanes : ∀ (inv : K) (y : Nat → K), ∀ l < w, -127 ≤ y l * inv ∧ y l * inv ≤ 127 → lanes inv y l = codeI8 inv (y l))
    (x : Nat → K) (n : Nat) : quantizeVec w hmax lanes x n = quantizeRowToI8 x n := by
  have habs : ∀ i < n, |x i| ≤ absMaxLoop x 0 0 n := fun i hi => abs_le_absMax hi
  have hnonneg : 0 ≤ absMaxLoop x 0 0 n := absMax_nonneg n
  unfold quantizeVec quantizeRowToI8
  dsimp only
  rw [vecAbsMax_eq hw hle]
  generalize absMaxLoop x 0 0 n = m at habs hnonneg
  split
  · rfl
  · next hne =>
    have hm : 0 < m := lt_of_le_of_ne hnonneg (Ne.symm hne)
    rw [← pieces_append (fun i => codeI8 (127 / m) (x i)) w (Nat.mul_div_le n w)]
    congr 2
    refine List.flatMap_congr fun p hp => List.map_congr_left fun l hl => ?_
    rw [List.mem_range] at hp hl
    have hi : w * p + l < n := by
      have hmul : w * (p + 1) ≤ w * (n / w) := Nat.mul_le_mul_left w hp
      have hdiv := Nat.mul_div_le n w
      rw [Nat.mul_succ] at hmul
      omega
    exact hlanes _ _ l hl (scaled_mem hm (habs _ hi))

theorem quantizeRowToI8Avx512_eq (hasAvx512 : Bool) (x : Nat → K) (n : Nat) :
    quantizeRowToI8Avx512 hasAvx512 x n = quantizeRowToI8 x n := by
  unfold quantizeRowToI8Avx512
  split
  · exact quantizeVec_eq (by decide) reduceMaxPs_le (fun _ _ _ _ hv => lanesAvx512_eq hv) x n
  · rfl

theorem quantizeRowToI8Avx2_eq (hasAvx2 : Bool) (x : Nat → K) (n : Nat) : quantizeRowToI8Avx2 hasAvx2 x n = quantizeRowToI8 x n := by
  unfold quantizeRowToI8Avx2
  split
  · exact quantizeVec_eq (by decide) hmax8_le (fun _ _ _ hl hv => lanesAvx2_eq hl hv) x n
  · rfl

/-- An element of the codes of a row. -/
theorem getD_map_range (f : Nat → Int) {n i : Nat} (hi : i < n) : ((List.range n).map f).getD i 0 = f i := by
  simp [hi]

theorem getD_replicate_zero (n i : Nat) : (List.replicate n (0 : Int)).getD i 0 = 0 := by
  rw [List.getD_eq_getElem?_getD, List.getElem?_replicate]
  split <;> rfl

theorem quantizeRowToI8_spec (x : Nat → K) (n : Nat) : IsI8 x n (quantizeRowToI8 x n).1 (quantizeRowToI8 x n).2 := by
  by_cases hzero : absMaxLoop x 0 0 n = 0
  · have heq : quantizeRowToI8 x n = (0, List.replicate n 0) := if_pos hzero
    rw [heq]
    constructor
    · exact List.length_replicate
    · intro i _
      rw [getD_replicate_zero]
      decide
    · exact fun _ => ⟨rfl, fun i _ => getD_replicate_zero n i⟩
    · rintro ⟨i, hi, hne⟩
      exact absurd (absMax_eq_zero.1 hzero i hi) hne
  · have heq : quantizeRowToI8 x n =
        (absMaxLoop x 0 0 n / 127, (List.range n).map fun i => codeI8 (127 / absMaxLoop x 0 0 n) (x i)) := if_neg hzero
    have hm : 0 < absMaxLoop x 0 0 n := lt_of_le_of_ne (absMax_nonneg n) (Ne.symm hzero)
    have hscaled : ∀ i < n, -127 ≤ x i * (127 / absMaxLoop x 0 0 n) ∧ x i * (127 / absMaxLoop x 0 0 n) ≤ 127 :=
      fun i hi => scaled_mem hm (abs_le_absMax hi)
    have hget : ∀ i < n, ((List.range n).map fun i => codeI8 (127 / absMaxLoop x 0 0 n) (x i)).getD i 0 =
        trunc (x i * (127 / absMaxLoop x 0 0 n)) := fun i hi => by
      rw [getD_map_range _ hi, codeI8_eq (hscaled i hi)]
    rw [heq]
    constructor
    · rw [List.length_map, List.length_range]
    · intro i hi
      rw [hget i hi]
      exact trunc_code (hscaled i hi)
    · exact fun h => absurd (absMax_eq_zero.2 h) hzero
    · rintro - i hi
      have hstep : 0 < absMaxLoop x 0 0 n / 127 := by positivity
      rw [hget i hi, error_eq hm]
      exact mul_lt_of_lt_one_right hstep (abs_sub_trunc_lt _)

/-! ## `quantize_to_q8k` -/

/-- A sum of codes within a group. -/
theorem sum_codes {q : Nat → Int} (hq : ∀ k < 16, -127 ≤ q k ∧ q k ≤ 127) {s : Finset Nat} (hs : s ⊆ range 16) :
    -2032 ≤ ∑ k ∈ s, q k ∧ ∑ k ∈ s, q k ≤ 2032 := by
  have hcard : s.card ≤ 16 := by simpa using card_le_card hs
  have hlo : s.card • (-127 : Int) ≤ ∑ k ∈ s, q k := card_nsmul_le_sum s q _ fun k hk => (hq k (mem_range.1 (hs hk))).1
  have hhi : ∑ k ∈ s, q k ≤ s.card • (127 : Int) := sum_le_card_nsmul s q _ fun k hk => (hq k (mem_range.1 (hs hk))).2
  rw [nsmul_eq_mul] at hlo hhi
  constructor <;> omega

theorem bsumLoop_eq {q : Nat → Int} (hq : ∀ k < 16, -127 ≤ q k ∧ q k ≤ 127) : ∀ k ≤ 16, bsumLoop q k = ∑ i ∈ range k, q i
  | 0, _ => rfl
  | k + 1, hk => by
    have hsum := sum_codes hq (range_subset_range.2 hk)
    rw [sum_range_succ] at hsum ⊢
    unfold bsumLoop
    rw [bsumLoop_eq hq k (by omega), wrap_eq (by omega) (by omega)]

theorem haddEpi16_eq {a b : Nat → Int} {i : Nat} (hi : i < 4) (hlo : -2 ^ 15 ≤ a (2 * i) + a (2 * i + 1))
    (hhi : a (2 * i) + a (2 * i + 1) < 2 ^ 15) : haddEpi16 a b i = a (2 * i) + a (2 * i + 1) := by
  unfold haddEpi16
  rw [if_pos hi, wrap_eq hlo hhi]

/-- Half of a group, packed to 16 bits. -/
theorem packsEpi32_eq {a b c : Nat → Int} (ha : ∀ l < 4, a l = c l) (hb : ∀ l < 4, b l = c (4 + l))
    (hc : ∀ l < 8, -127 ≤ c l ∧ c l ≤ 127) {i : Nat} (hi : i < 8) : packsEpi32 a b i = c i := by
  have hlane := hc i hi
  have hpick : (if i < 4 then a i else b (i - 4)) = c i := by
    split
    · next hlt => exact ha i hlt
    · rw [hb (i - 4) (by omega), Nat.add_sub_cancel' (by omega)]
  unfold packsEpi32
  rw [hpick, saturate_eq (by omega) (by omega)]

/-- The bytes and the sum that are made of the sixteen lanes of a group. -/
theorem packed_group {i32 : Nat → Int} (hq : ∀ k < 16, -127 ≤ i32 k ∧ i32 k ≤ 127) :
    let i16₀ := packsEpi32 i32 fun l => i32 (4 + l)
    let i16₁ := packsEpi32 (fun l => i32 (8 + l)) fun l => i32 (12 + l)
    (∀ k < 16, packsEpi16 i16₀ i16₁ k = i32 k) ∧
      haddEpi16 (haddEpi16 (haddEpi16 (addEpi16 i16₀ i16₁) fun _ => 0) fun _ => 0) (fun _ => 0) 0 = ∑ k ∈ range 16, i32 k := by
  intro i16₀ i16₁
  have h0 : ∀ i < 8, i16₀ i = i32 i := fun i hi =>
    packsEpi32_eq (fun _ _ => rfl) (fun _ _ => rfl) (fun l hl => hq l (by omega)) hi
  have h1 : ∀ i < 8, i16₁ i = i32 (8 + i) := fun i hi =>
    @packsEpi32_eq _ _ (fun i => i32 (8 + i)) (fun _ _ => rfl) (fun _ _ => by rw [← Nat.add_assoc])
      (fun l hl => hq _ (by omega)) i hi
  constructor
  · intro k hk
    have hcode := hq k hk
    have hpick : (if k < 8 then i16₀ k else i16₁ (k - 8)) = i32 k := by
      split
      · next hlt => exact h0 k hlt
      · rw [h1 (k - 8) (by omega), Nat.add_sub_cancel' (by omega)]
    unfold packsEpi16
    rw [hpick, saturate_eq (by omega) (by omega)]
  · -- eight sums of two, four of four, two of eight
    have hsum2 : ∀ i < 8, addEpi16 i16₀ i16₁ i = i32 i + i32 (8 + i) ∧ -254 ≤ i32 i + i32 (8 + i) ∧ i32 i + i32 (8 + i) ≤ 254 := by
      intro i hi
      have hlo := hq i (by omega)
      have hhi := hq (8 + i) (by omega)
      unfold addEpi16
      rw [h0 i hi, h1 i hi]
      exact ⟨wrap_eq (by omega) (by omega), by omega, by omega⟩
    generalize addEpi16 i16₀ i16₁ = sum2 at hsum2
    have hsum4 : ∀ i < 4, haddEpi16 sum2 (fun _ => 0) i = sum2 (2 * i) + sum2 (2 * i + 1) ∧
        -508 ≤ sum2 (2 * i) + sum2 (2 * i + 1) ∧ sum2 (2 * i) + sum2 (2 * i + 1) ≤ 508 := by
      intro i hi
      obtain ⟨heven, hlo, hhi⟩ := hsum2 (2 * i) (by omega)
      obtain ⟨hodd, hlo', hhi'⟩ := hsum2 (2 * i + 1) (by omega)
      exact ⟨haddEpi16_eq hi (by omega) (by omega), by omega, by omega⟩
    generalize haddEpi16 sum2 (fun _ => 0) = sum4 at hsum4
    have hsum8 : ∀ i < 2, haddEpi16 sum4 (fun _ => 0) i = sum4 (2 * i) + sum4 (2 * i + 1) ∧
        -1016 ≤ sum4 (2 * i) + sum4 (2 * i + 1) ∧ sum4 (2 * i) + sum4 (2 * i + 1) ≤ 1016 := by
      intro i hi
      obtain ⟨heven, hlo, hhi⟩ := hsum4 (2 * i) (by omega)
      obtain ⟨hodd, hlo', hhi'⟩ := hsum4 (2 * i + 1) (by omega)
      exact ⟨haddEpi16_eq (by omega) (by omega) (by omega), by omega, by omega⟩
    generalize haddEpi16 sum4 (fun _ => 0) = sum8 at hsum8
    obtain ⟨heq0, hlo0, hhi0⟩ := hsum8 0 (by decide)
    obtain ⟨heq1, hlo1, hhi1⟩ := hsum8 1 (by decide)
    have hlast := @haddEpi16_eq sum8 (fun _ => 0) 0 (by decide)
    simp only [Nat.mul_zero, Nat.zero_add] at hlast
    rw [hlast (by omega) (by omega), heq0, heq1]
    simp only [sum_range_succ, sum_range_zero, (hsum4 0 (by decide)).1, (hsum4 1 (by decide)).1, (hsum4 2 (by decide)).1,
      (hsum4 3 (by decide)).1, (hsum2 0 (by decide)).1, (hsum2 1 (by decide)).1, (hsum2 2 (by decide)).1, (hsum2 3 (by decide)).1,
      (hsum2 4 (by decide)).1, (hsum2 5 (by decide)).1, (hsum2 6 (by decide)).1, (hsum2 7 (by decide)).1]
    ring

/-- The codes of a group and their sum, with nearest-even rounding. -/
def groupOf (inv : K) (xj : Nat → K) : List Int × Int :=
  ((List.range 16).map fun k => roundEven (xj k * inv), ∑ k ∈ range 16, roundEven (xj k * inv))

theorem groupAvx2_eq {inv : K} {xj : Nat → K} (hv : ∀ k < 16, -127 ≤ xj k * inv ∧ xj k * inv ≤ 127) :
    groupAvx2 inv xj = groupOf inv xj := by
  have hi32 : ∀ k < 16, cvtEpi32 (roundEven ((roundEven (min (max (xj k * inv) (-127)) 127) : Int) : K)) = roundEven (xj k * inv) := by
    intro k hk
    have hcode := roundEven_code (hv k hk)
    rw [max_eq_left (hv k hk).1, min_eq_left (hv k hk).2, roundEven_intCast, cvtEpi32_eq (by omega) (by omega)]
  have hpacked := @packed_group (fun k => cvtEpi32 (roundEven ((roundEven (min (max (xj k * inv) (-127)) 127) : Int) : K)))
    (fun k hk => by rw [hi32 k hk]; exact roundEven_code (hv k hk))
  have hcodes : (groupAvx2 inv xj).1 = (groupOf inv xj).1 := by
    unfold groupAvx2 groupOf
    dsimp only
    refine List.map_congr_left fun k hk => ?_
    exact (hpacked.1 k (List.mem_range.1 hk)).trans (hi32 k (List.mem_range.1 hk))
  have hsum : (groupAvx2 inv xj).2 = (groupOf inv xj).2 := hpacked.2.trans (sum_congr rfl fun k hk => hi32 k (mem_range.1 hk))
  exact Prod.ext hcodes hsum

theorem groupScalar_eq {inv : K} {xj : Nat → K} (hv : ∀ k < 16, -127 ≤ xj k * inv ∧ xj k * inv ≤ 127) :
    groupScalar inv xj = groupOf inv xj := by
  have hq : ∀ k < 16, codeQ8K inv (xj k) = roundEven (xj k * inv) := fun k hk => codeQ8K_eq (hv k hk)
  have hcodes : (groupScalar inv xj).1 = (groupOf inv xj).1 := by
    unfold groupScalar groupOf
    exact List.map_congr_left fun k hk => hq k (List.mem_range.1 hk)
  have hsum : (groupScalar inv xj).2 = (groupOf inv xj).2 := by
    unfold groupScalar groupOf
    dsimp only
    rw [bsumLoop_eq (fun k hk => by rw [hq k hk]; exact roundEven_code (hv k hk)) 16 le_rfl]
    exact sum_congr rfl fun k hk => hq k (mem_range.1 hk)
  exact Prod.ext hcodes hsum

theorem quantizeBlock_congr {group : K → (Nat → K) → List Int × Int}
    (hgroup : ∀ (inv : K) (xj : Nat → K), (∀ k < 16, -127 ≤ xj k * inv ∧ xj k * inv ≤ 127) → group inv xj = groupOf inv xj)
    (xb : Nat → K) : quantizeBlock group (absMaxLoop xb 0 0 256) xb = quantizeBlock groupOf (absMaxLoop xb 0 0 256) xb := by
  unfold quantizeBlock
  dsimp only
  split
  · rfl
  · next hne =>
    have hm : 0 < absMaxLoop xb 0 0 256 := lt_of_le_of_ne (absMax_nonneg 256) (Ne.symm hne)
    have heach : ∀ j < 16, group (127 / absMaxLoop xb 0 0 256) (fun k => xb (16 * j + k)) =
        groupOf (127 / absMaxLoop xb 0 0 256) fun k => xb (16 * j + k) := fun j hj =>
      hgroup _ _ fun k hk => scaled_mem hm (abs_le_absMax (by omega))
    congr 1
    · exact List.flatMap_congr fun j hj => by rw [heach j (List.mem_range.1 hj)]
    · exact List.map_congr_left fun j hj => by rw [heach j (List.mem_range.1 hj)]

/-- Both bodies give the block with nearest-even codes. -/
theorem quantizeToQ8K_eq (hasAvx2 : Bool) (x : Nat → K) (nBlocks : Nat) :
    quantizeToQ8K hasAvx2 x nBlocks = (List.range nBlocks).map fun b =>
      quantizeBlock groupOf (absMaxLoop (fun i => x (256 * b + i)) 0 0 256) fun i => x (256 * b + i) := by
  refine List.map_congr_left fun b _ => ?_
  have hmax : hmax8 (vmaxLoop 8 (fun i => x (256 * b + i)) 32) = absMaxLoop (fun i => x (256 * b + i)) 0 0 256 :=
    vecAbsMax_eq (by decide) hmax8_le 256
  dsimp only
  split
  · rw [hmax]
    exact quantizeBlock_congr (fun _ _ hv => groupAvx2_eq hv) _
  · exact quantizeBlock_congr (fun _ _ hv => groupScalar_eq hv) _

omit [FloorRing K] in
theorem zeroBlock_spec {xb : Nat → K} (hx : ∀ i < 256, xb i = 0) : IsQ8K xb zeroBlock := by
  have hqs : ∀ i, (zeroBlock : Q8KActBlock K).qs.getD i 0 = 0 := getD_replicate_zero 256
  have hsum : ∀ j (s : Finset Nat), ∑ k ∈ s, (zeroBlock : Q8KActBlock K).qs.getD (16 * j + k) 0 = 0 := fun j s =>
    sum_eq_zero fun k _ => hqs _
  constructor
  · exact ⟨List.length_replicate, List.length_replicate⟩
  · intro i _
    rw [hqs]
    decide
  · intro i hi
    have hd : (zeroBlock : Q8KActBlock K).d = 0 := rfl
    rw [hqs, hx i hi, hd, zero_mul, sub_zero, abs_zero, zero_div]
  · intro j _
    rw [hsum]
    exact getD_replicate_zero 16 j
  · intro j _ s _
    rw [hsum]
    decide

theorem quantizeBlock_spec (xb : Nat → K) : IsQ8K xb (quantizeBlock groupOf (absMaxLoop xb 0 0 256) xb) := by
  by_cases hzero : absMaxLoop xb 0 0 256 = 0
  · rw [quantizeBlock, if_pos hzero]
    exact zeroBlock_spec (absMax_eq_zero.1 hzero)
  · have hm : 0 < absMaxLoop xb 0 0 256 := lt_of_le_of_ne (absMax_nonneg 256) (Ne.symm hzero)
    have hscaled : ∀ i < 256, -127 ≤ xb i * (127 / absMaxLoop xb 0 0 256) ∧ xb i * (127 / absMaxLoop xb 0 0 256) ≤ 127 :=
      fun i hi => scaled_mem hm (abs_le_absMax hi)
    generalize absMaxLoop xb 0 0 256 = m at hzero hm hscaled
    have hqs : (quantizeBlock groupOf m xb).qs = (List.range 256).map fun i => roundEven (xb i * (127 / m)) := by
      have hpieces := pieces_append (fun i => roundEven (xb i * (127 / m))) 16 (show 16 * 16 ≤ 256 by decide)
      rw [← hpieces, quantizeBlock, if_neg hzero]
      exact (List.append_nil _).symm
    have hsums : (quantizeBlock groupOf m xb).bsums =
        (List.range 16).map fun j => ∑ k ∈ range 16, roundEven (xb (16 * j + k) * (127 / m)) := by
      rw [quantizeBlock, if_neg hzero]
      rfl
    have hd : (quantizeBlock groupOf m xb).d = m / 127 := by
      rw [quantizeBlock, if_neg hzero]
    have hget : ∀ i < 256, (quantizeBlock groupOf m xb).qs.getD i 0 = roundEven (xb i * (127 / m)) := fun i hi => by
      rw [hqs, getD_map_range _ hi]
    have hcodes : ∀ i < 256, -127 ≤ (quantizeBlock groupOf m xb).qs.getD i 0 ∧ (quantizeBlock groupOf m xb).qs.getD i 0 ≤ 127 :=
      fun i hi => by
        rw [hget i hi]
        exact roundEven_code (hscaled i hi)
    constructor
    · rw [hqs, hsums]
      simp
    · exact hcodes
    · intro i hi
      have hstep : 0 < m / 127 := by positivity
      have herror := mul_le_mul_of_nonneg_left (abs_sub_roundEven_le (xb i * (127 / m))) hstep.le
      rw [hget i hi, hd, error_eq hm]
      linarith
    · intro j hj
      rw [hsums, getD_map_range _ hj]
      exact sum_congr rfl fun k hk => (hget _ (by have hk16 := mem_range.1 hk; omega)).symm
    · intro j hj s hs
      have hsum := @sum_codes (fun k => (quantizeBlock groupOf m xb).qs.getD (16 * j + k) 0) (fun k hk => hcodes _ (by omega)) s hs
      constructor <;> omega

end

/-! ## The sums of codes -/

section

variable {arr : Nat → Int}

/-- A lane adds up its four bytes of every step. -/
theorem accLoop_eq (harr : ∀ i, -128 ≤ arr i ∧ arr i ≤ 127) (l : Nat) : ∀ c ≤ 2 ^ 20,
    accLoop arr c l = ∑ p ∈ range c, ∑ g ∈ range 4, arr (64 * p + (16 * g + l)) ∧
      -(512 * c : Int) ≤ accLoop arr c l ∧ accLoop arr c l ≤ 508 * c
  | 0, _ => by simp [accLoop]
  | c + 1, hc => by
    obtain ⟨heq, hlo, hhi⟩ := accLoop_eq harr l c (by omega)
    obtain ⟨hlo0, hhi0⟩ := harr (64 * c + l)
    obtain ⟨hlo1, hhi1⟩ := harr (64 * c + 16 + l)
    obtain ⟨hlo2, hhi2⟩ := harr (64 * c + 32 + l)
    obtain ⟨hlo3, hhi3⟩ := harr (64 * c + 48 + l)
    have hfour : ∑ g ∈ range 4, arr (64 * c + (16 * g + l)) =
        arr (64 * c + l) + arr (64 * c + 16 + l) + arr (64 * c + 32 + l) + arr (64 * c + 48 + l) := by
      simp only [sum_range_succ, sum_range_zero, Nat.mul_zero, Nat.mul_one, Nat.reduceMul, ← Nat.add_assoc, Nat.add_zero, zero_add]
    have hstep : accLoop arr (c + 1) l =
        accLoop arr c l + arr (64 * c + l) + arr (64 * c + 16 + l) + arr (64 * c + 32 + l) + arr (64 * c + 48 + l) := by
      show wrap 32 (wrap 32 (wrap 32 (wrap 32 (accLoop arr c l + arr (64 * c + l)) + arr (64 * c + 16 + l)) +
        arr (64 * c + 32 + l)) + arr (64 * c + 48 + l)) = _
      have h0 : wrap 32 (accLoop arr c l + arr (64 * c + l)) = accLoop arr c l + arr (64 * c + l) := wrap_eq (by omega) (by omega)
      have h1 := @wrap_eq 31 (accLoop arr c l + arr (64 * c + l) + arr (64 * c + 16 + l)) (by omega) (by omega)
      have h2 := @wrap_eq 31 (accLoop arr c l + arr (64 * c + l) + arr (64 * c + 16 + l) + arr (64 * c + 32 + l)) (by omega) (by omega)
      rw [h0, h1, h2, wrap_eq (by omega) (by omega)]
    rw [sum_range_succ, hfour, hstep, heq]
    refine ⟨by ring, ?_, ?_⟩ <;> push_cast <;> omega

/-- All lanes together. -/
theorem reduce_accLoop (harr : ∀ i, -128 ≤ arr i ∧ arr i ≤ 127) {c : Nat} (hc : c ≤ 2 ^ 16) :
    reduceAddEpi32 (accLoop arr c) = ∑ i ∈ range (64 * c), arr i ∧
      -(8192 * c : Int) ≤ ∑ i ∈ range (64 * c), arr i ∧ ∑ i ∈ range (64 * c), arr i ≤ 8128 * c := by
  have hlanes : ∑ l ∈ range 16, accLoop arr c l = ∑ i ∈ range (64 * c), arr i := by
    calc ∑ l ∈ range 16, accLoop arr c l
        = ∑ l ∈ range 16, ∑ p ∈ range c, ∑ g ∈ range 4, arr (64 * p + (16 * g + l)) :=
          sum_congr rfl fun l _ => (accLoop_eq harr l c (by omega)).1
      _ = ∑ p ∈ range c, ∑ g ∈ range 4, ∑ l ∈ range 16, arr (64 * p + (16 * g + l)) := by
          rw [sum_comm]
          exact sum_congr rfl fun p _ => sum_comm
      _ = ∑ p ∈ range c, ∑ t ∈ range 64, arr (64 * p + t) :=
          sum_congr rfl fun p _ => sum_groups (fun t => arr (64 * p + t)) 16 4
      _ = ∑ i ∈ range (64 * c), arr i := sum_groups arr 64 c
  have hlo := sum_le_sum fun l (_ : l ∈ range 16) => (accLoop_eq harr l c (by omega)).2.1
  have hhi := sum_le_sum fun l (_ : l ∈ range 16) => (accLoop_eq harr l c (by omega)).2.2
  rw [hlanes, sum_const, card_range, nsmul_eq_mul] at hlo hhi
  push_cast at hlo hhi
  unfold reduceAddEpi32
  rw [hlanes]
  exact ⟨wrap_eq (by omega) (by omega), by omega, by omega⟩

/-- The tail adds its elements to a total that is far from `2 ^ 31`. -/
theorem sumLoop_eq {total M : Int} {i : Nat} (htotal : -M ≤ total ∧ total ≤ M) : ∀ {t : Nat},
    (∀ s < t, -512 ≤ arr (i + s) ∧ arr (i + s) ≤ 512) → M + 512 * t < 2 ^ 31 →
      sumLoop arr total i t = total + ∑ s ∈ range t, arr (i + s) ∧
        -(M + 512 * t) ≤ sumLoop arr total i t ∧ sumLoop arr total i t ≤ M + 512 * t
  | 0, _, _ => by simpa [sumLoop] using htotal
  | t + 1, harr, hM => by
    push_cast at hM ⊢
    obtain ⟨heq, hlo', hhi'⟩ := sumLoop_eq htotal (t := t) (fun s hs => harr s (by omega)) (by omega)
    obtain ⟨hl, hh⟩ := harr t (Nat.lt_succ_self t)
    have hwrap : wrap 32 (sumLoop arr total i t + arr (i + t)) = sumLoop arr total i t + arr (i + t) :=
      wrap_eq (by omega) (by omega)
    unfold sumLoop
    rw [hwrap, sum_range_succ, heq]
    refine ⟨by ring, ?_, ?_⟩ <;> omega

theorem sumI8Avx512_eq (harr : ∀ i, -128 ≤ arr i ∧ arr i ≤ 127) (hasAvx512 : Bool) {n : Nat} (hn : n ≤ 2 ^ 20) :
    sumI8Avx512 hasAvx512 arr n = ∑ i ∈ range n, arr i := by
  have hdiv := Nat.mul_div_le n 64
  unfold sumI8Avx512
  split
  · obtain ⟨heq, hlo, hhi⟩ := @reduce_accLoop arr harr (n / 64) (by omega)
    have htail : ∀ s < n - 64 * (n / 64), -512 ≤ arr (64 * (n / 64) + s) ∧ arr (64 * (n / 64) + s) ≤ 512 := fun s _ => by
      have hbyte := harr (64 * (n / 64) + s)
      constructor <;> omega
    rw [heq, (sumLoop_eq (M := 8192 * (n / 64 : Nat)) (by constructor <;> omega) htail (by omega)).1, ← sum_range_add,
      Nat.add_sub_cancel' hdiv]
  · exact (sumI8_eq harr (by omega)).1

end

/-! ## The quantizers -/

section

variable {K : Type} [Field K] [LinearOrder K] [IsStrictOrderedRing K] [FloorRing K]

/-- With and without the vector instructions: the blocks of the activations and the codes of a row are the same, within the
bounds that the integer kernels assume, and the sums of codes are exact. -/
theorem quantizers_establish (hasAvx2 hasAvx512 : Bool) (x : Nat → K) :
    (∀ nBlocks, quantizeToQ8K true x nBlocks = quantizeToQ8K false x nBlocks ∧ (quantizeToQ8K hasAvx2 x nBlocks).length = nBlocks ∧
      ∀ b ob, (quantizeToQ8K hasAvx2 x nBlocks)[b]? = some ob → IsQ8K (fun i => x (256 * b + i)) ob) ∧
    (∀ n, quantizeRowToI8Avx2 hasAvx2 x n = quantizeRowToI8 x n ∧ quantizeRowToI8Avx512 hasAvx512 x n = quantizeRowToI8 x n ∧
      IsI8 x n (quantizeRowToI8 x n).1 (quantizeRowToI8 x n).2) ∧
    ∀ (arr : Nat → Int) (n : Nat), (∀ i, -128 ≤ arr i ∧ arr i ≤ 127) → n ≤ 16384 →
      sumI8 arr n = ∑ i ∈ range n, arr i ∧ sumI8Avx512 hasAvx512 arr n = ∑ i ∈ range n, arr i := by
  refine ⟨fun nBlocks => ⟨?_, ?_, fun b ob hob => ?_⟩, fun n => ?_, fun arr n harr hn => ?_⟩
  · rw [quantizeToQ8K_eq, quantizeToQ8K_eq]
  · rw [quantizeToQ8K_eq, List.length_map, List.length_range]
  · rw [quantizeToQ8K_eq] at hob
    obtain ⟨b', hb', rfl⟩ := Option.map_eq_some_iff.1 (List.getElem?_map ▸ hob)
    obtain ⟨hlt, hb⟩ := List.getElem?_eq_some_iff.1 hb'
    rw [List.getElem_range] at hb
    rw [← hb]
    exact quantizeBlock_spec _
  · exact ⟨quantizeRowToI8Avx2_eq hasAvx2 x n, quantizeRowToI8Avx512_eq hasAvx512 x n, quantizeRowToI8_spec x n⟩
  · exact ⟨(sumI8_eq harr (by omega)).1, sumI8Avx512_eq harr hasAvx512 (by omega)⟩

end

theorem quantizers_establish_ramp :
    (quantizeToQ8K true (fun i => (i : ℚ) - 7) 2 = quantizeToQ8K false (fun i => (i : ℚ) - 7) 2) ∧
      IsI8 (fun i => (i : ℚ) - 7) 19 (quantizeRowToI8 (fun i => (i : ℚ) - 7) 19).1 (quantizeRowToI8 (fun i => (i : ℚ) - 7) 19).2 ∧
      sumI8Avx512 true (fun i => (i : Int) % 5) 200 = ∑ i ∈ range 200, ((i : Int) % 5) :=
  have h := quantizers_establish true true fun i => (i : ℚ) - 7
  ⟨(h.1 2).1, (h.2.1 19).2.2, (h.2.2 (fun i => (i : Int) % 5) 200 (fun _ => ⟨by omega, by omega⟩) (by decide)).2⟩

end BitForge.Quantize
