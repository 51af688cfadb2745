/-
Packed ternary rows with a scale for each group of weights: the scalar `ternary_matmul_packed` and the kernels that repeat its
group loop, two on floats and five on quantized activations. Floats are numbers of any ordered field with a floor.
-/
import BitForge.Kernel.PackedTernary

namespace BitForge.PackedGroups

open Finset BitForge.Lib BitForge.Lib.Simd BitForge.Q2Vnni BitForge.Quantize BitForge.PackedTernary

section

variable {K : Type} [Field K] [LinearOrder K] [FloorRing K]

/-! ## The scalar reference -/

/-- `n_groups`, in `int` -/
def nGroups (n groupSize : Nat) : Int := (wrap 32 ((n : Int) + groupSize - 1)).tdiv groupSize

/-- The end of a group; it starts at `g * groupSize`. -/
def groupEnd (n groupSize g : Nat) : Nat := min (g * groupSize + groupSize) n

/-- `scale_idx`, in `int` -/
def scaleIdx (i : Nat) (nGroups : Int) (g : Nat) : Int := wrap 32 (i * nGroups + g)

/-- `total` after a number of groups. -/
def total (term : Nat → K) : Nat → K
  | 0 => 0
  | g + 1 => total term g + term g

/-- The addition of an element by the sign of its weight. -/
def addSigned (s : K) (w : Int) (x : K) : K := if w = 1 then s + x else if w = -1 then s - x else s

/-- A scalar loop over `t` elements, from `j` on. -/
def scalarLoop (add : K → Int → K → K) (row : Nat → Nat) (x : Nat → K) (s : K) (j : Nat) : Nat → K
  | 0 => s
  | t + 1 => add (scalarLoop add row x s j t) (unpackTernary row (j + t)) (x (j + t))

/-- `ternary_matmul_packed`, with per-group scales. -/
def ternaryMatmulPacked (x : Nat → K) (w : Nat → UInt8) (n d : Nat) (scales : Int → K) (groupSize : Nat) : List K :=
  (List.range d).map fun i =>
    total (fun g => scalarLoop addSigned (rowOf w n i) x 0 (g * groupSize) (groupEnd n groupSize g - g * groupSize) *
      scales (scaleIdx i (nGroups n groupSize) g)) (nGroups n groupSize).toNat

/-! ## The kernels on floats -/

/-- `unpack8_to_epi32` -/
def unpack8ToEpi32 (p : Nat → Nat) : Nat → Int := fun l => ((((p 0 + 256 * p 1) >>> (2 * l)) &&& 3 : Nat) : Int) - 1

/-- `unpack16_to_epi32` -/
def unpack16ToEpi32 (p : Nat → Nat) : Nat → Int := fun l =>
  ((((p 0 + 256 * p 1 + 65536 * p 2 + 16777216 * p 3) >>> (2 * l)) &&& 3 : Nat) : Int) - 1

/-- What the kernels on floats differ in: the width of a step, the weights it unpacks, what it adds to a lane, the horizontal
sum, what the tail adds, and the index of the scale of a group. -/
structure FloatKernel (K : Type) where
  width : Nat
  unpack : (Nat → Nat) → Nat → Int
  lane : K → Int → K → K
  hsum : (Nat → K) → K
  tail : K → Int → K → K
  scaleIdx : Nat → Int → Nat → Int

/-- `ternary_matmul_packed_avx2` -/
def ternaryMatmulPackedAvx2 : FloatKernel K where
  width := 8
  unpack := unpack8ToEpi32
  lane accum w x := accum + (if w = 1 then x else 0) - (if w = -1 then x else 0)
  hsum accum :=
    let sum4 := fun l => accum l + accum (4 + l)
    sum4 0 + sum4 1 + (sum4 2 + sum4 3)
  tail := addSigned
  scaleIdx := scaleIdx

/-- `ternary_matmul_packed_avx512`: the scale of a group does not depend on the row. -/
def ternaryMatmulPackedAvx512 : FloatKernel K where
  width := 16
  unpack := unpack16ToEpi32
  lane acc512 w x := w * x + acc512
  hsum acc512 := ∑ l ∈ range 16, acc512 l
  tail partialSum w x := partialSum + w * x
  scaleIdx _ _ g := g

namespace FloatKernel

variable (k : FloatKernel K)

/-- The accumulators after a number of steps, from the element `a` on. -/
def acc (row : Nat → Nat) (x : Nat → K) (a : Nat) : Nat → Nat → K
  | 0 => fun _ => 0
  | c + 1 => fun l => k.lane (acc row x a c l) (k.unpack (fun i => row ((a + k.width * c) / 4 + i)) l) (x (a + k.width * c + l))

/-- The sum of a group. -/
def groupSum (row : Nat → Nat) (x : Nat → K) (a b : Nat) : K :=
  let c := (b - a) / k.width
  let j := a + k.width * c
  scalarLoop k.tail row x (k.hsum (k.acc row x a c)) j (b - j)

def matmul (x : Nat → K) (w : Nat → UInt8) (n d : Nat) (scales : Int → K) (groupSize : Nat) : List K :=
  (List.range d).map fun i =>
    total (fun g => k.groupSum (rowOf w n i) x (g * groupSize) (groupEnd n groupSize g) *
      scales (k.scaleIdx i (nGroups n groupSize) g)) (nGroups n groupSize).toNat

end FloatKernel

/-! ## The kernels on quantized activations -/

/-- The group loops of an integer kernel, over the groups that it has room for. -/
def intMatmul (k : RowKernel) (safeGroups : Nat) (q : Nat → Int) (actScale : K) (w : Nat → UInt8) (n d : Nat) (scales : Int → K)
    (groupSize : Nat) : List K :=
  if actScale = 0 then List.replicate d 0
  else
    (List.range d).map fun i =>
      total (fun g =>
        let sumQxGroup := sumI8 (fun t => q (g * groupSize + t)) (groupEnd n groupSize g - g * groupSize)
        (k.rowDot (rowOf w n i) q sumQxGroup (g * groupSize) (groupEnd n groupSize g) : K) * actScale *
          scales (scaleIdx i (nGroups n groupSize) g)) safeGroups

/-- `safe_groups` -/
def safeGroups (n groupSize : Nat) : Nat := (min (nGroups n groupSize) 1024).toNat

/-- `ternary_matmul_packed_vnni_preq` -/
def vnniPreq (vbmi : Bool) (q : Nat → Int) (actScale : K) (w : Nat → UInt8) (n d : Nat) (scales : Int → K) (groupSize : Nat) :
    List K := intMatmul (ternaryMatmulPackedVnniPreq vbmi) (safeGroups n groupSize) q actScale w n d scales groupSize

/-- `ternary_matmul_packed_vnni` -/
def vnni (vbmi : Bool) (x : Nat → K) (w : Nat → UInt8) (n d : Nat) (scales : Int → K) (groupSize : Nat) : List K :=
  if n > 16384 then ternaryMatmulPackedAvx512.matmul x w n d scales groupSize
  else
    let qx := quantizeRowToI8Avx512 true x n
    intMatmul (ternaryMatmulPackedVnni vbmi) (safeGroups n groupSize) (fun i => qx.2.getD i 0) qx.1 w n d scales groupSize

/-- `ternary_matmul_packed_vnni256` -/
def vnni256 (x : Nat → K) (w : Nat → UInt8) (n d : Nat) (scales : Int → K) (groupSize : Nat) : List K :=
  if n > 16384 then ternaryMatmulPackedAvx2.matmul x w n d scales groupSize
  else
    let qx := quantizeRowToI8Avx512 true x n
    intMatmul ternaryMatmulPackedVnni256 (safeGroups n groupSize) (fun i => qx.2.getD i 0) qx.1 w n d scales groupSize

/-- `ternary_matmul_packed_avx_vnni` -/
def avxVnni (x : Nat → K) (w : Nat → UInt8) (n d : Nat) (scales : Int → K) (groupSize : Nat) : List K :=
  if n > 16384 then ternaryMatmulPackedAvx2.matmul x w n d scales groupSize
  else
    let qx := quantizeRowToI8Avx2 true x n
    intMatmul ternaryMatmulPackedAvxVnni (safeGroups n groupSize) (fun i => qx.2.getD i 0) qx.1 w n d scales groupSize

/-- `ternary_matmul_packed_dotprod` goes through all groups. -/
def dotprod (x : Nat → K) (w : Nat → UInt8) (n d : Nat) (scales : Int → K) (groupSize : Nat) : List K :=
  if n > 16384 then ternaryMatmulPacked x w n d scales groupSize
  else
    let qx := quantizeRowToI8 x n
    intMatmul ternaryMatmulPackedDotprod (nGroups n groupSize).toNat (fun i => qx.2.getD i 0) qx.1 w n d scales groupSize

/-- The activations that an integer kernel works on: those quantized and scaled back, or, for long rows, the floats. -/
def activations (x : Nat → K) (n : Nat) : Nat → K :=
  if n > 16384 then x else fun j => (quantizeRowToI8 x n).1 * (quantizeRowToI8 x n).2.getD j 0

end

/-- All kernels compute what the scalar reference computes, for every matrix of the shape with codes below 3, all scales and
all activations. -/
def Agree (K : Type) [Field K] [LinearOrder K] [FloorRing K] (n d groupSize : Nat) : Prop :=
  ∀ (vbmi : Bool) (w : Nat → UInt8) (scales : Int → K) (x : Nat → K) (q : Nat → Int) (actScale : K),
    (∀ i < d, ∀ j < n, wEnc (rowOf w n i) j < 3) → (∀ i, -127 ≤ q i ∧ q i ≤ 127) →
      let reference := fun x => ternaryMatmulPacked x w n d scales groupSize
      ternaryMatmulPackedAvx2.matmul x w n d scales groupSize = reference x ∧
        ternaryMatmulPackedAvx512.matmul x w n d scales groupSize = reference x ∧
        vnniPreq vbmi q actScale w n d scales groupSize = reference (fun j => actScale * q j) ∧
        vnni vbmi x w n d scales groupSize = reference (activations x n) ∧
        vnni256 x w n d scales groupSize = reference (activations x n) ∧
        avxVnni x w n d scales groupSize = reference (activations x n) ∧
        dotprod x w n d scales groupSize = reference (activations x n)

/-- There are no groups, or a single row of at most 1024 groups, which are short or start with a byte, and none of which is so
long that its dot product is no 32-bit number. -/
def Fits (n d groupSize : Nat) : Prop :=
  nGroups n groupSize ≤ 0 ∨
    d = 1 ∧ (∀ g < (nGroups n groupSize).toNat, g * groupSize % 4 = 0 ∨ groupEnd n groupSize g - g * groupSize < 8) ∧
      nGroups n groupSize ≤ 1024 ∧ min groupSize n ≤ 16909320

/-! ## Groups -/

section

variable {n groupSize : Nat}

/-- A group that is gone through starts within the row. -/
theorem start_lt (hn : n < 2 ^ 31) (hsize : 1 ≤ groupSize) (hlt : groupSize < 2 ^ 31) {g : Nat}
    (hg : g < (nGroups n groupSize).toNat) : g * groupSize < n := by
  unfold nGroups at hg
  rcases lt_or_ge ((n : Int) + groupSize - 1) (2 ^ 31) with hfit | hover
  · have hwrap : wrap 32 ((n : Int) + groupSize - 1) = n + groupSize - 1 := wrap_eq (by omega) hfit
    rw [hwrap, Int.tdiv_eq_ediv_of_nonneg (by omega)] at hg
    have hquot : (g : Int) + 1 ≤ ((n : Int) + groupSize - 1) / groupSize := by omega
    have hmul := (Int.le_ediv_iff_mul_le (by omega)).1 hquot
    rw [add_mul, one_mul] at hmul
    have hprod : ((g * groupSize : Nat) : Int) = (g : Int) * groupSize := by push_cast; rfl
    omega
  · have hwrap : wrap 32 ((n : Int) + groupSize - 1) = n + groupSize - 1 - 2 ^ 32 := by
      unfold wrap
      rw [Int.bmod_def]
      omega
    have hneg : (wrap 32 ((n : Int) + groupSize - 1)).tdiv groupSize ≤ 0 := by
      rw [hwrap, ← Int.neg_neg ((n : Int) + groupSize - 1 - 2 ^ 32), Int.neg_tdiv]
      have hnonneg := Int.tdiv_nonneg (show 0 ≤ -((n : Int) + groupSize - 1 - 2 ^ 32) by omega) (show 0 ≤ (groupSize : Int) by omega)
      omega
    omega

theorem nGroups_le (hn : n < 2 ^ 31) (hsize : 1 ≤ groupSize) (hlt : groupSize < 2 ^ 31) : (nGroups n groupSize).toNat ≤ n := by
  by_contra hgt
  have hstart := start_lt hn hsize hlt (not_le.1 hgt)
  have hmul := Nat.le_mul_of_pos_right n hsize
  omega

/-- The index of a scale of the first row. -/
theorem scaleIdx_zero {g : Nat} (hg : g < 2 ^ 31) : scaleIdx 0 (nGroups n groupSize) g = g := by
  unfold scaleIdx
  rw [Nat.cast_zero, zero_mul, zero_add]
  exact wrap_eq (by omega) (by omega)

end

/-! ## Loops -/

/-- The weights of the codes 0, 1 and 2. -/
def IsTernary (w : Int) : Prop := w = -1 ∨ w = 0 ∨ w = 1

theorem isTernary_of_code {row : Nat → Nat} {j : Nat} (h : wEnc row j < 3) : IsTernary (unpackTernary row j) := by
  unfold IsTernary unpackTernary
  omega

section

variable {K : Type} [Field K]

theorem total_eq (term : Nat → K) : ∀ m : Nat, total term m = ∑ g ∈ range m, term g
  | 0 => rfl
  | m + 1 => by
    unfold total
    rw [total_eq term m, sum_range_succ]

theorem addSigned_eq {w : Int} (hw : IsTernary w) (s x : K) : addSigned s w x = s + w * x := by
  rcases hw with rfl | rfl | rfl <;> simp [addSigned, sub_eq_add_neg]

/-- The dot product of a group with its activations. -/
def groupDot (row : Nat → Nat) (x : Nat → K) (a b : Nat) : K := ∑ t ∈ range (b - a), (unpackTernary row (a + t) : K) * x (a + t)

theorem scalarLoop_eq {add : K → Int → K → K} (hadd : ∀ {w : Int}, IsTernary w → ∀ s x : K, add s w x = s + w * x)
    {row : Nat → Nat} {n : Nat} (hcodes : ∀ j < n, wEnc row j < 3) (x : Nat → K) (s : K) {j : Nat} : ∀ t : Nat, j + t ≤ n →
      scalarLoop add row x s j t = s + ∑ u ∈ range t, (unpackTernary row (j + u) : K) * x (j + u)
  | 0, _ => by simp [scalarLoop]
  | t + 1, ht => by
    unfold scalarLoop
    rw [scalarLoop_eq hadd hcodes x s t (by omega), hadd (isTernary_of_code (hcodes _ (by omega))), sum_range_succ, add_assoc]

/-- A kernel that adds the products of its lanes, and their sums. -/
structure FloatKernel.Lawful (k : FloatKernel K) : Prop where
  width_pos : 0 < k.width
  width_mod : k.width % 4 = 0
  unpack : ∀ {p : Nat → Nat} {l : Nat}, (∀ i, p i < 256) → l < k.width → k.unpack p l = (code p l : Int) - 1
  lane : ∀ {w : Int}, IsTernary w → ∀ s x : K, k.lane s w x = s + w * x
  hsum : ∀ v : Nat → K, k.hsum v = ∑ l ∈ range k.width, v l
  tail : ∀ {w : Int}, IsTernary w → ∀ s x : K, k.tail s w x = s + w * x

theorem lawful_avx2 : (ternaryMatmulPackedAvx2 : FloatKernel K).Lawful where
  width_pos := Nat.succ_pos 7
  width_mod := show 8 % 4 = 0 from rfl
  unpack hp hl := by
    show ((((_ + 256 * _) >>> (2 * _)) &&& 3 : Nat) : Int) - 1 = _
    rw [twoBytes_lane hp hl]
  lane hw s x := by
    rcases hw with rfl | rfl | rfl <;> simp [ternaryMatmulPackedAvx2, sub_eq_add_neg]
  hsum v := by
    show v 0 + v (4 + 0) + (v 1 + v (4 + 1)) + (v 2 + v (4 + 2) + (v 3 + v (4 + 3))) = ∑ l ∈ range 8, v l
    simp only [Nat.reduceAdd, sum_range_succ, sum_range_zero]
    ring
  tail := addSigned_eq

theorem lawful_avx512 : (ternaryMatmulPackedAvx512 : FloatKernel K).Lawful where
  width_pos := Nat.succ_pos 15
  width_mod := show 16 % 4 = 0 from rfl
  unpack hp hl := by
    show ((((_ + 256 * _ + 65536 * _ + 16777216 * _) >>> (2 * _)) &&& 3 : Nat) : Int) - 1 = _
    rw [fourBytes_lane hp hl]
  lane _ s x := add_comm _ s
  hsum _ := rfl
  tail _ _ _ := rfl

/-! ## The sum of a group in a kernel on floats -/

variable {k : FloatKernel K} {row : Nat → Nat} {n : Nat} {a b : Nat}

/-- A lane takes its weight from the byte that the step starts in. -/
theorem facc_eq (hk : k.Lawful) (hrow : ∀ i, row i < 256) (hcodes : ∀ j < n, wEnc row j < 3) (x : Nat → K) {l : Nat}
    (hl : l < k.width) : ∀ c : Nat, a + k.width * c ≤ n → k.acc row x a c l =
      ∑ p ∈ range c, (unpackTernary row (4 * ((a + k.width * p) / 4) + l) : K) * x (a + k.width * p + l)
  | 0, _ => rfl
  | c + 1, hc => by
    rw [Nat.mul_succ] at hc
    have hfrom := code_from row (a := 4 * ((a + k.width * c) / 4)) (by omega) l
    rw [Nat.mul_div_cancel_left _ (by decide)] at hfrom
    have hunpack : k.unpack (fun i => row ((a + k.width * c) / 4 + i)) l = unpackTernary row (4 * ((a + k.width * c) / 4) + l) := by
      rw [hk.unpack (fun _ => hrow _) hl, hfrom, unpackTernary, wEnc_eq]
    unfold FloatKernel.acc
    rw [facc_eq hk hrow hcodes x hl c (by omega), hunpack, hk.lane (isTernary_of_code (hcodes _ (by omega))), sum_range_succ]

/-- The lanes and the tail of a group. -/
theorem groupSum_eq (hk : k.Lawful) (hrow : ∀ i, row i < 256) (hcodes : ∀ j < n, wEnc row j < 3) (x : Nat → K) (hab : a ≤ b)
    (hb : b ≤ n) : k.groupSum row x a b =
      ∑ p ∈ range ((b - a) / k.width), ∑ l ∈ range k.width,
          (unpackTernary row (4 * ((a + k.width * p) / 4) + l) : K) * x (a + k.width * p + l) +
        groupDot row x (a + k.width * ((b - a) / k.width)) b := by
  have hdiv := Nat.mul_div_le (b - a) k.width
  unfold FloatKernel.groupSum groupDot
  dsimp only
  rw [scalarLoop_eq hk.tail hcodes x _ _ (by omega), hk.hsum,
    sum_congr rfl fun l hl => facc_eq hk hrow hcodes x (mem_range.1 hl) _ (by omega), sum_comm]

/-- Where a group starts with a byte or makes no vector step, its sum is the dot product. -/
theorem groupSum_eq_dot (hk : k.Lawful) (hrow : ∀ i, row i < 256) (hcodes : ∀ j < n, wEnc row j < 3) (x : Nat → K) (hab : a ≤ b)
    (hb : b ≤ n) (halign : a % 4 = 0 ∨ b - a < k.width) : k.groupSum row x a b = groupDot row x a b := by
  have hdiv := Nat.mul_div_le (b - a) k.width
  rw [groupSum_eq hk hrow hcodes x hab hb]
  rcases halign with ha | hshort
  · have hwidth := hk.width_mod
    have hstep : ∀ p, 4 * ((a + k.width * p) / 4) = a + k.width * p := fun p =>
      Nat.mul_div_cancel' (Nat.dvd_of_mod_eq_zero (by rw [Nat.add_mod, ha, Nat.mul_mod, hwidth]; simp))
    have htail : b - a = k.width * ((b - a) / k.width) + (b - (a + k.width * ((b - a) / k.width))) := by omega
    simp only [hstep, Nat.add_assoc]
    rw [sum_groups (fun j => (unpackTernary row (a + j) : K) * x (a + j)) k.width]
    unfold groupDot
    conv_rhs => rw [htail, sum_range_add]
    simp only [Nat.add_assoc]
  · rw [Nat.div_eq_of_lt hshort]
    simp

end

/-! ## The dot product of a group in an integer kernel -/

theorem sumI8_wrap (arr : Nat → Int) : ∀ n : Nat, sumI8 arr n = wrap 32 (∑ i ∈ range n, arr i)
  | 0 => rfl
  | n + 1 => by
    unfold sumI8
    rw [sumI8_wrap arr n, wrap_add_left, sum_range_succ]

/-- The dot product of codes 0, 1 and 2 is exact up to a length at which it no longer fits 32 bits. -/
theorem rowDot_exact {k : RowKernel} (hk : k.Lawful) {row : Nat → Nat} (hrow : ∀ i, row i < 256) {n : Nat}
    (hcodes : ∀ j < n, wEnc row j < 3) {q : Nat → Int} (hq : ∀ i, -127 ≤ q i ∧ q i ≤ 127) {a b : Nat} (hb : b ≤ n)
    (halign : a % 4 = 0 ∨ b - a < k.width) (hlen : (b - a) / k.width ≤ 528416) (hfit : b - a ≤ 16909320) :
    k.rowDot row q (sumI8 (fun t => q (a + t)) (b - a)) a b = ∑ t ∈ range (b - a), unpackTernary row (a + t) * q (a + t) := by
  have hterm : ∀ t < b - a, -127 ≤ unpackTernary row (a + t) * q (a + t) ∧ unpackTernary row (a + t) * q (a + t) ≤ 127 := by
    intro t ht
    have hqt := hq (a + t)
    rcases isTernary_of_code (hcodes (a + t) (by omega)) with hw | hw | hw <;> rw [hw] <;> constructor <;> omega
  have hsum := @sum_lanes (fun t => unpackTernary row (a + t) * q (a + t)) (b - a) 127 hterm
  rw [rowDot_wrap hk hrow hq halign hlen fun _ => by rw [sumI8_wrap, wrap_wrap]]
  exact wrap_eq (by omega) (by omega)

/-! ## All rows -/

section

variable {K : Type} [Field K] [LinearOrder K] [FloorRing K] {w : Nat → UInt8} {n d groupSize : Nat}

/-- The shape: positive sizes of `int`, and a matrix of the codes 0, 1 and 2. -/
structure Shape (w : Nat → UInt8) (n d groupSize : Nat) : Prop where
  n_lt : n < 2 ^ 31
  size_pos : 1 ≤ groupSize
  size_lt : groupSize < 2 ^ 31
  codes : ∀ i < d, ∀ j < n, wEnc (rowOf w n i) j < 3

theorem rowOf_lt (w : Nat → UInt8) (n i t : Nat) : rowOf w n i t < 256 := UInt8.toNat_lt _

/-- Where a group lies in the row. -/
theorem Shape.group (hs : Shape w n d groupSize) {g : Nat} (hg : g < (nGroups n groupSize).toNat) :
    g * groupSize ≤ groupEnd n groupSize g ∧ groupEnd n groupSize g ≤ n ∧
      groupEnd n groupSize g - g * groupSize ≤ min groupSize n := by
  have hstart := start_lt hs.n_lt hs.size_pos hs.size_lt hg
  unfold groupEnd
  omega

omit [LinearOrder K] [FloorRing K] in
theorem reference_eq (hs : Shape w n d groupSize) (x : Nat → K) (scales : Int → K) :
    ternaryMatmulPacked x w n d scales groupSize = (List.range d).map fun i =>
      ∑ g ∈ range (nGroups n groupSize).toNat, groupDot (rowOf w n i) x (g * groupSize) (groupEnd n groupSize g) *
        scales (scaleIdx i (nGroups n groupSize) g) := by
  refine List.map_congr_left fun i hi => ?_
  rw [total_eq]
  refine sum_congr rfl fun g hg => ?_
  obtain ⟨hab, hb, -⟩ := hs.group (mem_range.1 hg)
  rw [scalarLoop_eq addSigned_eq (hs.codes i (List.mem_range.1 hi)) x 0 _ (by omega), zero_add]
  rfl

omit [LinearOrder K] [FloorRing K] in
theorem matmul_eq {k : FloatKernel K} (hk : k.Lawful) (hs : Shape w n d groupSize)
    (halign : ∀ g < (nGroups n groupSize).toNat,
      g * groupSize % 4 = 0 ∨ groupEnd n groupSize g - g * groupSize < k.width)
    (hidx : ∀ i < d, ∀ g < (nGroups n groupSize).toNat, k.scaleIdx i (nGroups n groupSize) g = scaleIdx i (nGroups n groupSize) g)
    (x : Nat → K) (scales : Int → K) : k.matmul x w n d scales groupSize = ternaryMatmulPacked x w n d scales groupSize := by
  rw [reference_eq hs]
  refine List.map_congr_left fun i hi => ?_
  rw [total_eq]
  refine sum_congr rfl fun g hg => ?_
  obtain ⟨hab, hb, -⟩ := hs.group (mem_range.1 hg)
  rw [groupSum_eq_dot hk (rowOf_lt w n i) (hs.codes i (List.mem_range.1 hi)) x hab hb (halign g (mem_range.1 hg)),
    hidx i (List.mem_range.1 hi) g (mem_range.1 hg)]

omit [FloorRing K] in
theorem intMatmul_eq {k : RowKernel} (hk : k.Lawful) (hs : Shape w n d groupSize) {q : Nat → Int}
    (hq : ∀ i, -127 ≤ q i ∧ q i ≤ 127)
    (halign : ∀ g < (nGroups n groupSize).toNat,
      g * groupSize % 4 = 0 ∨ groupEnd n groupSize g - g * groupSize < k.width)
    (hlen : ∀ g < (nGroups n groupSize).toNat, (groupEnd n groupSize g - g * groupSize) / k.width ≤ 528416)
    (hfit : ∀ g < (nGroups n groupSize).toNat, groupEnd n groupSize g - g * groupSize ≤ 16909320)
    {safe : Nat} (hsafe : safe = (nGroups n groupSize).toNat) (actScale : K) (scales : Int → K) :
    intMatmul k safe q actScale w n d scales groupSize =
      ternaryMatmulPacked (fun j => actScale * q j) w n d scales groupSize := by
  rw [reference_eq hs]
  unfold intMatmul
  split
  · next hzero =>
    rw [hzero]
    simp [groupDot]
  · refine List.map_congr_left fun i hi => ?_
    rw [total_eq, hsafe]
    refine sum_congr rfl fun g hg => ?_
    obtain ⟨-, hb, -⟩ := hs.group (mem_range.1 hg)
    have hg' := mem_range.1 hg
    dsimp only
    rw [rowDot_exact hk (rowOf_lt w n i) (hs.codes i (List.mem_range.1 hi)) hq hb (halign g hg') (hlen g hg') (hfit g hg')]
    unfold groupDot
    push_cast
    rw [sum_mul]
    congr 1
    exact sum_congr rfl fun t _ => by ring

variable [IsStrictOrderedRing K]

/-- An integer kernel on the quantized activations of a row that is not too long for its buffer. -/
theorem quantized_eq {k : RowKernel} (hk : k.Lawful) (hwidth : 8 ≤ k.width) (hs : Shape w n d groupSize) (hn : n ≤ 16384)
    (halign : ∀ g < (nGroups n groupSize).toNat, g * groupSize % 4 = 0 ∨ groupEnd n groupSize g - g * groupSize < 8)
    {safe : Nat} (hsafe : safe = (nGroups n groupSize).toNat) (x : Nat → K) {qx : K × List Int} (hqx : qx = quantizeRowToI8 x n)
    (scales : Int → K) : intMatmul k safe (fun i => qx.2.getD i 0) qx.1 w n d scales groupSize =
      ternaryMatmulPacked (activations x n) w n d scales groupSize := by
  have hspec := quantizeRowToI8_spec x n
  have hact : activations x n = fun j => qx.1 * ((qx.2.getD j 0 : Int) : K) := by
    rw [hqx]
    exact if_neg (by omega)
  have hq : ∀ i, -127 ≤ qx.2.getD i 0 ∧ qx.2.getD i 0 ≤ 127 := by
    intro i
    rw [hqx]
    rcases Nat.lt_or_ge i n with hi | hi
    · exact hspec.codes i hi
    · rw [List.getD_eq_getElem?_getD, List.getElem?_eq_none (by rw [hspec.length]; exact hi)]
      decide
  have hlen : ∀ g < (nGroups n groupSize).toNat, groupEnd n groupSize g - g * groupSize ≤ 16384 := fun g hg => by
    obtain ⟨-, hb, -⟩ := hs.group hg
    omega
  rw [hact]
  exact intMatmul_eq hk hs hq (fun g hg => (halign g hg).imp_right fun hlt => lt_of_lt_of_le hlt hwidth)
    (fun g hg => (Nat.div_le_self _ _).trans ((hlen g hg).trans (by decide))) (fun g hg => (hlen g hg).trans (by decide)) hsafe _ _

theorem agree_of_fits (hn : n < 2 ^ 31) (hsize : 1 ≤ groupSize) (hlt : groupSize < 2 ^ 31) (hfits : Fits n d groupSize) :
    Agree K n d groupSize := by
  intro vbmi w scales x q actScale hcodes hq reference
  have hs : Shape w n d groupSize := ⟨hn, hsize, hlt, hcodes⟩
  -- what the shape gives for the groups that are gone through
  have hgroups : ∀ g < (nGroups n groupSize).toNat, d = 1 ∧
      (g * groupSize % 4 = 0 ∨ groupEnd n groupSize g - g * groupSize < 8) ∧ g < 2 ^ 31 ∧
        groupEnd n groupSize g - g * groupSize ≤ 16909320 := by
    intro g hg
    obtain ⟨-, -, hlen⟩ := hs.group hg
    rcases hfits with hnone | ⟨hd, halign, hcap, hfit⟩
    · omega
    · exact ⟨hd, halign g hg, by omega, by omega⟩
  have hsafe : safeGroups n groupSize = (nGroups n groupSize).toNat := by
    unfold safeGroups
    rcases hfits with hnone | ⟨-, -, hcap, -⟩ <;> omega
  have halign : ∀ g < (nGroups n groupSize).toNat, g * groupSize % 4 = 0 ∨ groupEnd n groupSize g - g * groupSize < 8 :=
    fun g hg => (hgroups g hg).2.1
  have hidx : ∀ i < d, ∀ g < (nGroups n groupSize).toNat, (g : Int) = scaleIdx i (nGroups n groupSize) g := by
    intro i hi g hg
    obtain ⟨hd, -, hg31, -⟩ := hgroups g hg
    obtain rfl : i = 0 := by omega
    exact (scaleIdx_zero hg31).symm
  have havx2 : ∀ x : Nat → K, ternaryMatmulPackedAvx2.matmul x w n d scales groupSize = reference x := fun x =>
    matmul_eq lawful_avx2 hs halign (fun _ _ _ _ => rfl) x scales
  have havx512 : ∀ x : Nat → K, ternaryMatmulPackedAvx512.matmul x w n d scales groupSize = reference x := fun x =>
    matmul_eq lawful_avx512 hs (fun g hg => (halign g hg).imp_right fun h8 => lt_of_lt_of_le h8 (show 8 ≤ 16 by decide)) hidx x scales
  have hlong : n > 16384 → activations x n = x := fun hgt => if_pos hgt
  refine ⟨havx2 x, havx512 x, ?_, ?_, ?_, ?_, ?_⟩
  · have hwidth : (ternaryMatmulPackedVnniPreq vbmi).width = 64 := rfl
    refine intMatmul_eq (lawful_vnni vbmi) hs hq (fun g hg => (halign g hg).imp_right fun h8 => ?_) (fun g hg => ?_)
      (fun g hg => (hgroups g hg).2.2.2) hsafe actScale scales
    · exact lt_of_lt_of_le h8 (show 8 ≤ 64 by decide)
    · have hlen := (hgroups g hg).2.2.2
      show (groupEnd n groupSize g - g * groupSize) / 64 ≤ 528416
      omega
  · unfold vnni
    split
    · next hgt => rw [hlong hgt, havx512]
    · next hle =>
      exact quantized_eq (lawful_vnni vbmi) (show 8 ≤ 64 by decide) hs (by omega) halign hsafe x
        (quantizeRowToI8Avx512_eq true x n) scales
  · unfold vnni256
    split
    · next hgt => rw [hlong hgt, havx2]
    · next hle =>
      exact quantized_eq lawful_vnni256 (by decide) hs (by omega) halign hsafe x
        (quantizeRowToI8Avx512_eq true x n) scales
  · unfold avxVnni
    split
    · next hgt => rw [hlong hgt, havx2]
    · next hle =>
      exact quantized_eq lawful_vnni256 (by decide) hs (by omega) halign hsafe x
        (quantizeRowToI8Avx2_eq true x n) scales
  · unfold dotprod
    split
    · next hgt => rw [hlong hgt]
    · next hle => exact quantized_eq lawful_dotprod (by decide) hs (by omega) halign rfl x rfl scales

end

/-! ## Where the kernels part -/

/-- A matrix of zero weights with one weight 1, the first of the byte `e`. -/
def oneWeight (e t : Nat) : UInt8 := if t = e then 0x56 else 0x55

theorem oneWeight_eq (e n i j : Nat) : unpackTernary (rowOf (oneWeight e) n i) j =
    if i * packedBytes n + j / 4 = e ∧ j % 4 = 0 then 1 else 0 := by
  have hmod := Nat.mod_lt j (show 0 < 4 by decide)
  unfold unpackTernary
  rw [wEnc_eq]
  unfold code rowOf oneWeight
  by_cases he : i * packedBytes n + j / 4 = e
  · rw [if_pos he]
    simp only [he, true_and]
    generalize j % 4 = r at hmod
    interval_cases r <;> rfl
  · rw [if_neg he, if_neg fun h => he h.1]
    generalize j % 4 = r at hmod
    interval_cases r <;> rfl

theorem oneWeight_codes (e n i j : Nat) : wEnc (rowOf (oneWeight e) n i) j < 3 := by
  have heq := oneWeight_eq e n i j
  unfold unpackTernary at heq
  split at heq <;> omega

/-- A matrix of weights 1. -/
def allOnes (_ : Nat) : UInt8 := 0xAA

theorem allOnes_eq (n i j : Nat) : unpackTernary (rowOf allOnes n i) j = 1 := by
  have hmod := Nat.mod_lt j (show 0 < 4 by decide)
  unfold unpackTernary
  rw [wEnc_eq]
  unfold code rowOf allOnes
  generalize j % 4 = r at hmod
  interval_cases r <;> rfl

theorem allOnes_codes (n i j : Nat) : wEnc (rowOf allOnes n i) j < 3 := by
  have heq := allOnes_eq n i j
  unfold unpackTernary at heq
  omega

section

variable {K : Type} [Field K]

/-- The activations of a unit vector. -/
def unit (e j : Nat) : K := if j = e then 1 else 0

theorem groupDot_unit (row : Nat → Nat) (e a b : Nat) :
    groupDot row (unit e : Nat → K) a b = if a ≤ e ∧ e < b then (unpackTernary row e : K) else 0 := by
  unfold groupDot unit
  split
  · next hin =>
    rw [sum_eq_single (e - a)]
    · rw [Nat.add_sub_cancel' hin.1, if_pos rfl, mul_one]
    · intro t _ hne
      rw [if_neg (by omega), mul_zero]
    · intro hout
      exact absurd (mem_range.2 (by omega)) hout
  · next hout =>
    refine sum_eq_zero fun t ht => ?_
    have hlt := mem_range.1 ht
    rw [if_neg (by omega), mul_zero]

end

/-- Over activations of zero, an integer kernel gives zero, wherever the group starts. -/
theorem rowDot_zero {k : RowKernel} (hk : k.Lawful) {row : Nat → Nat} (hrow : ∀ i, row i < 256) {q : Nat → Int} {a b : Nat}
    (hab : a ≤ b) (hq : ∀ j, a ≤ j → j < b → q j = 0) : k.rowDot row q (sumI8 (fun t => q (a + t)) (b - a)) a b = 0 := by
  have hdiv := Nat.mul_div_le (b - a) k.width
  have hwidth : 4 * (k.width / 4) = k.width := Nat.mul_div_cancel' (Nat.dvd_of_mod_eq_zero hk.width_mod)
  have hacc : ∀ c, a + k.width * c ≤ b → ∀ l < k.width / 4, k.acc row q a c l = 0 := by
    intro c
    induction c with
    | zero => exact fun _ _ _ => rfl
    | succ c ih =>
      intro hc l hl
      rw [Nat.mul_succ] at hc
      have hzero : ∀ t < 4, q (a + k.width * c + (4 * l + t)) = 0 := fun t ht => hq _ (by omega) (by omega)
      have hlane := ih (by omega) l hl
      have hstep := hk.step (p := fun i => row ((a + k.width * c) / 4 + i)) (q := fun i => q (a + k.width * c + i))
        (fun _ => hrow _) hl (fun t ht => by rw [hzero t ht]; decide)
        (show -2 ^ 30 ≤ k.acc row q a c l ∧ k.acc row q a c l ≤ 2 ^ 30 by rw [hlane]; decide)
      have hsum : ∑ t ∈ range 4, k.weight (code (fun i => row ((a + k.width * c) / 4 + i)) (4 * l + t)) *
          q (a + k.width * c + (4 * l + t)) = 0 := sum_eq_zero fun t ht => by rw [hzero t (mem_range.1 ht), mul_zero]
      unfold RowKernel.acc
      rw [hstep, hlane, hsum, add_zero]
  have hreduce : k.reduce (k.acc row q a ((b - a) / k.width)) = wrap 32 0 := by
    rw [hk.reduce, sum_eq_zero fun l hl => hacc _ (by omega) l (mem_range.1 hl)]
  have htail : ∑ s ∈ range (b - (a + k.width * ((b - a) / k.width))),
      k.weight (wEnc row (a + k.width * ((b - a) / k.width) + s)) * q (a + k.width * ((b - a) / k.width) + s) = 0 :=
    sum_eq_zero fun s hs => by
      have hlt := mem_range.1 hs
      rw [hq _ (by omega) (by omega), mul_zero]
  have hsumQx : sumI8 (fun t => q (a + t)) (b - a) = 0 := by
    rw [sumI8_wrap, sum_eq_zero fun t ht => hq _ (by omega) (by have hlt := mem_range.1 ht; omega)]
    rfl
  unfold RowKernel.rowDot
  dsimp only
  rw [hreduce, sumLoop_wrap, htail, hsumQx]
  split <;> rfl

theorem rowDot_lt {k : RowKernel} (hb : k.biased = true) (row : Nat → Nat) (q : Nat → Int) (sumQx : Int) (a b : Nat) :
    k.rowDot row q sumQx a b < 2 ^ 31 := by
  unfold RowKernel.rowDot
  dsimp only
  rw [if_pos hb]
  exact Int.bmod_lt (by decide)

section

variable {K : Type} [Field K] [LinearOrder K] [FloorRing K] {n d groupSize : Nat}

/-- With a second row, `ternary_matmul_packed_avx512` takes the scales of the first. -/
theorem rows_of_agree (hn : n < 2 ^ 31) (hn1 : 1 ≤ n) (hd : 1 ≤ d) (hsize : 1 ≤ groupSize) (hlt : groupSize < 2 ^ 31)
    (hpos : 0 < (nGroups n groupSize).toNat) (h : Agree K n d groupSize) : d = 1 := by
  by_contra hne
  have hcodes : ∀ i < d, ∀ j < n, wEnc (rowOf (oneWeight (packedBytes n)) n i) j < 3 := fun i _ j _ => oneWeight_codes _ n i j
  have hs : Shape (oneWeight (packedBytes n)) n d groupSize := ⟨hn, hsize, hlt, hcodes⟩
  have hle := nGroups_le hn hsize hlt
  obtain ⟨-, h512, -⟩ := h true (oneWeight (packedBytes n)) (fun idx => if idx = nGroups n groupSize then 1 else 0) (unit 0)
    (fun _ => 0) 0 hcodes fun _ => by decide
  have hrow := List.map_inj_left.1 (h512.trans (reference_eq hs _ _)) 1 (List.mem_range.2 (by omega))
  have hkernel : total (fun g => ternaryMatmulPackedAvx512.groupSum (rowOf (oneWeight (packedBytes n)) n 1) (unit 0 : Nat → K)
      (g * groupSize) (groupEnd n groupSize g) * if (g : Int) = nGroups n groupSize then 1 else 0) (nGroups n groupSize).toNat = 0 := by
    rw [total_eq]
    refine sum_eq_zero fun g hg => ?_
    have hglt := mem_range.1 hg
    rw [if_neg (by omega), mul_zero]
  have hreference : ∑ g ∈ range (nGroups n groupSize).toNat, groupDot (rowOf (oneWeight (packedBytes n)) n 1) (unit 0 : Nat → K)
      (g * groupSize) (groupEnd n groupSize g) *
        (if scaleIdx 1 (nGroups n groupSize) g = nGroups n groupSize then (1 : K) else 0) = 1 := by
    rw [sum_eq_single 0]
    · have hidx : scaleIdx 1 (nGroups n groupSize) 0 = nGroups n groupSize := by
        unfold scaleIdx
        rw [Nat.cast_one, one_mul, Nat.cast_zero, add_zero]
        exact wrap_eq (by omega) (by omega)
      have hend : 0 < groupEnd n groupSize 0 := by
        unfold groupEnd
        omega
      rw [groupDot_unit, if_pos ⟨by omega, hend⟩, oneWeight_eq, if_pos (by simp), hidx, if_pos rfl]
      norm_num
    · intro g _ hg0
      have hstart : 0 < g * groupSize := Nat.mul_pos (by omega) hsize
      rw [groupDot_unit, if_neg (by omega), zero_mul]
    · intro hout
      exact absurd (mem_range.2 hpos) hout
  exact zero_ne_one (hkernel.symm.trans (hrow.trans hreference))

/-- A vector step in the middle of a byte takes its first weight from the byte's start. -/
theorem aligned_of_agree (hn : n < 2 ^ 31) (hd : 1 ≤ d) (hsize : 1 ≤ groupSize) (hlt : groupSize < 2 ^ 31)
    (h : Agree K n d groupSize) {g₀ : Nat} (hg₀ : g₀ < (nGroups n groupSize).toNat) :
    g₀ * groupSize % 4 = 0 ∨ groupEnd n groupSize g₀ - g₀ * groupSize < 8 := by
  by_contra hnot
  rw [not_or, not_lt] at hnot
  obtain ⟨hmod, hlen⟩ := hnot
  have hcodes : ∀ e, ∀ i < d, ∀ j < n, wEnc (rowOf (oneWeight e) n i) j < 3 := fun e i _ j _ => oneWeight_codes e n i j
  have hs : Shape (oneWeight (g₀ * groupSize / 4)) n d groupSize := ⟨hn, hsize, hlt, hcodes _⟩
  obtain ⟨hab, hb, -⟩ := hs.group hg₀
  have hle := nGroups_le hn hsize hlt
  obtain ⟨h2, -⟩ := h true (oneWeight (g₀ * groupSize / 4)) (fun idx => if idx = g₀ then 1 else 0) (unit (g₀ * groupSize))
    (fun _ => 0) 0 (hcodes _) fun _ => by decide
  have hrow := List.map_inj_left.1 (h2.trans (reference_eq hs _ _)) 0 (List.mem_range.2 (by omega))
  -- only the scale of the group counts
  have hpick : ∀ f : Nat → K, ∑ g ∈ range (nGroups n groupSize).toNat,
      f g * (if scaleIdx 0 (nGroups n groupSize) g = (g₀ : Int) then (1 : K) else 0) = f g₀ := by
    intro f
    rw [sum_eq_single g₀]
    · rw [scaleIdx_zero (by omega), if_pos rfl, mul_one]
    · intro g hg hne
      have hglt := mem_range.1 hg
      rw [scaleIdx_zero (by omega), if_neg (by omega), mul_zero]
    · intro hout
      exact absurd (mem_range.2 hg₀) hout
  have hkernel : (ternaryMatmulPackedAvx2 : FloatKernel K).groupSum (rowOf (oneWeight (g₀ * groupSize / 4)) n 0)
      (unit (g₀ * groupSize)) (g₀ * groupSize) (groupEnd n groupSize g₀) = 1 := by
    have hwidth : (ternaryMatmulPackedAvx2 : FloatKernel K).width = 8 := rfl
    have hstep : 0 < (groupEnd n groupSize g₀ - g₀ * groupSize) / 8 := Nat.div_pos hlen (by decide)
    rw [groupSum_eq lawful_avx2 (rowOf_lt _ n 0) (fun j _ => oneWeight_codes _ n 0 j) _ hab hb, hwidth, groupDot_unit,
      if_neg (by omega), add_zero, sum_eq_single 0, sum_eq_single 0]
    · rw [oneWeight_eq, if_pos (by constructor <;> omega)]
      simp [unit]
    · intro l _ hl
      unfold unit
      rw [if_neg (by omega), mul_zero]
    · intro hout
      exact absurd (mem_range.2 (by decide)) hout
    · intro p _ hp
      refine sum_eq_zero fun l _ => ?_
      unfold unit
      rw [if_neg (by omega), mul_zero]
    · intro hout
      exact absurd (mem_range.2 hstep) hout
  have hreference : groupDot (rowOf (oneWeight (g₀ * groupSize / 4)) n 0) (unit (g₀ * groupSize) : Nat → K) (g₀ * groupSize)
      (groupEnd n groupSize g₀) = 0 := by
    rw [groupDot_unit, if_pos (by constructor <;> omega), oneWeight_eq, if_neg (by omega), Int.cast_zero]
  rw [total_eq] at hrow
  have hsides := (hpick _).symm.trans (hrow.trans (hpick _))
  rw [hkernel, hreference] at hsides
  exact one_ne_zero hsides

/-- `ternary_matmul_packed_vnni_preq` on the scale 1 and the weights 1, and the reference. -/
theorem preq_of_agree (hn : n < 2 ^ 31) (hd : 1 ≤ d) (hsize : 1 ≤ groupSize) (hlt : groupSize < 2 ^ 31)
    (h : Agree K n d groupSize) {q : Nat → Int} (hq : ∀ i, -127 ≤ q i ∧ q i ≤ 127) :
    ∑ g ∈ range (safeGroups n groupSize), (((ternaryMatmulPackedVnni true).rowDot (rowOf allOnes n 0) q
        (sumI8 (fun t => q (g * groupSize + t)) (groupEnd n groupSize g - g * groupSize)) (g * groupSize)
          (groupEnd n groupSize g) : Int) : K) =
      ∑ g ∈ range (nGroups n groupSize).toNat,
        ((∑ t ∈ range (groupEnd n groupSize g - g * groupSize), q (g * groupSize + t) : Int) : K) := by
  have hcodes : ∀ i < d, ∀ j < n, wEnc (rowOf allOnes n i) j < 3 := fun i _ j _ => allOnes_codes n i j
  have hs : Shape allOnes n d groupSize := ⟨hn, hsize, hlt, hcodes⟩
  obtain ⟨-, -, hpreq, -⟩ := h true allOnes (fun _ => 1) (unit 0) q 1 hcodes hq
  replace hpreq := hpreq.trans (reference_eq hs _ _)
  unfold vnniPreq intMatmul at hpreq
  rw [if_neg one_ne_zero] at hpreq
  have hrow := List.map_inj_left.1 hpreq 0 (List.mem_range.2 (by omega))
  rw [total_eq] at hrow
  simpa [groupDot, allOnes_eq, ternaryMatmulPackedVnniPreq] using hrow

theorem groups_of_agree (hn : n < 2 ^ 31) (hd : 1 ≤ d) (hsize : 1 ≤ groupSize) (hlt : groupSize < 2 ^ 31)
    (h : Agree K n d groupSize) : nGroups n groupSize ≤ 1024 := by
  by_contra hgt
  -- a unit vector in the first group that is left out
  have hstart : ∀ g < (nGroups n groupSize).toNat, g * groupSize < n := fun g hg => start_lt hn hsize hlt hg
  have hq : ∀ i, -127 ≤ (fun j => if j = 1024 * groupSize then 1 else 0 : Nat → Int) i ∧
      (fun j => if j = 1024 * groupSize then 1 else 0 : Nat → Int) i ≤ 127 := fun i => by
    dsimp only
    split <;> decide
  have hsums := preq_of_agree hn hd hsize hlt h hq
  have hmul : ∀ g, g < 1024 → g * groupSize + groupSize ≤ 1024 * groupSize := fun g hg => by
    rw [← Nat.succ_mul]
    exact Nat.mul_le_mul_right _ hg
  have hsafe : safeGroups n groupSize = 1024 := by
    unfold safeGroups
    omega
  rw [hsafe, sum_eq_zero, sum_eq_single 1024] at hsums
  · have hend : 0 < groupEnd n groupSize 1024 - 1024 * groupSize := by
      have hlast := hstart 1024 (by omega)
      unfold groupEnd
      omega
    rw [sum_eq_single 0 (fun t _ ht => if_neg (by omega)) fun hout => absurd (mem_range.2 hend) hout,
      if_pos (Nat.add_zero _)] at hsums
    norm_num at hsums
  · intro g hg hne
    rw [sum_eq_zero, Int.cast_zero]
    intro t ht
    have htlt := mem_range.1 ht
    refine if_neg fun heq => ?_
    unfold groupEnd at htlt
    rcases Nat.lt_or_ge g 1024 with hlow | hhigh
    · have hend := hmul g hlow
      omega
    · have hnext : 1024 * groupSize + groupSize ≤ g * groupSize := by
        rw [← Nat.succ_mul]
        exact Nat.mul_le_mul_right _ (by omega)
      omega
  · intro hout
    exact absurd (mem_range.2 (by omega)) hout
  · intro g hg
    have hend := hmul g (mem_range.1 hg)
    have hglt := hstart g (by have hg1024 := mem_range.1 hg; omega)
    rw [rowDot_zero (lawful_vnni true) (rowOf_lt _ n 0) (by unfold groupEnd; omega), Int.cast_zero]
    intro j _ hj
    unfold groupEnd at hj
    exact if_neg (by omega)

theorem length_of_agree (hn : n < 2 ^ 31) (hd : 1 ≤ d) (hsize : 1 ≤ groupSize) (hlt : groupSize < 2 ^ 31)
    (hpos : 0 < (nGroups n groupSize).toNat) (h : Agree K n d groupSize) : min groupSize n ≤ 16909320 := by
  by_contra hgt
  have hstart : ∀ g < (nGroups n groupSize).toNat, g * groupSize < n := fun g hg => start_lt hn hsize hlt hg
  have hq : ∀ i, -127 ≤ (fun j => if j < min groupSize n then 127 else 0 : Nat → Int) i ∧
      (fun j => if j < min groupSize n then 127 else 0 : Nat → Int) i ≤ 127 := fun i => by
    dsimp only
    split <;> decide
  have hsums := preq_of_agree hn hd hsize hlt h hq
  have hnext : ∀ g ≠ 0, groupSize ≤ g * groupSize := fun g hg => Nat.le_mul_of_pos_left _ (by omega)
  have hsafe : 0 < safeGroups n groupSize ∧ safeGroups n groupSize ≤ (nGroups n groupSize).toNat := by
    unfold safeGroups
    omega
  rw [sum_eq_single 0, sum_eq_single 0] at hsums
  · have hend : groupEnd n groupSize 0 - 0 * groupSize = min groupSize n := by
      unfold groupEnd
      omega
    have hall : ∀ t ∈ range (min groupSize n), (if 0 * groupSize + t < min groupSize n then (127 : Int) else 0) = 127 := fun t ht => by
      rw [Nat.zero_mul, Nat.zero_add, if_pos (mem_range.1 ht)]
    have hint := Int.cast_injective hsums
    rw [hend, sum_congr rfl hall, sum_const, card_range, nsmul_eq_mul] at hint
    have hbound := rowDot_lt (k := ternaryMatmulPackedVnni true) rfl (rowOf allOnes n 0)
      (fun j => if j < min groupSize n then 127 else 0)
      (sumI8 (fun t => if 0 * groupSize + t < min groupSize n then 127 else 0) (min groupSize n)) (0 * groupSize)
      (groupEnd n groupSize 0)
    omega
  · intro g hg hne
    have hzero := hnext g hne
    rw [sum_eq_zero fun t _ => if_neg (by omega), Int.cast_zero]
  · intro hout
    exact absurd (mem_range.2 hpos) hout
  · intro g hg hne
    have hzero := hnext g hne
    have hglt := hstart g (by have hgsafe := mem_range.1 hg; omega)
    rw [rowDot_zero (lawful_vnni true) (rowOf_lt _ n 0) (by unfold groupEnd; omega) fun j hj _ => if_neg (by omega), Int.cast_zero]
  · intro hout
    exact absurd (mem_range.2 hsafe.1) hout

variable [IsStrictOrderedRing K]

/-- The kernels agree with the scalar reference on all inputs of a shape if and only if it fits them. -/
theorem group_kernels_agree_iff (hn1 : 1 ≤ n) (hn : n < 2 ^ 31) (hd : 1 ≤ d) (hsize : 1 ≤ groupSize) (hlt : groupSize < 2 ^ 31) :
    Agree K n d groupSize ↔ Fits n d groupSize := by
  refine ⟨fun h => ?_, agree_of_fits hn hsize hlt⟩
  rcases le_or_gt (nGroups n groupSize) 0 with hnone | hsome
  · exact Or.inl hnone
  · have hpos : 0 < (nGroups n groupSize).toNat := by omega
    exact Or.inr ⟨rows_of_agree hn hn1 hd hsize hlt hpos h, fun g hg => aligned_of_agree hn hd hsize hlt h hg,
      groups_of_agree hn hd hsize hlt h, length_of_agree hn hd hsize hlt hpos h⟩

end

theorem group_kernels_agree_ten_weights : Agree ℚ 10 1 4 :=
  (group_kernels_agree_iff (by decide) (by decide) (by decide) (by decide) (by decide)).2 (Or.inr (by decide))

/-- One weight in each of two rows, 0 and 1, with the scales 0 and 1: the AVX-512 kernel takes the first scale for both. -/
theorem second_row_scale : ¬ Agree ℚ 1 2 1 := by
  intro h
  obtain ⟨-, h512, -⟩ := h true (oneWeight 1) (fun idx => idx) (fun _ => 1) (fun _ => 0) 0 (fun i _ j _ => oneWeight_codes 1 1 i j)
    fun _ => by decide
  exact absurd h512 (by decide +kernel)

end BitForge.PackedGroups
