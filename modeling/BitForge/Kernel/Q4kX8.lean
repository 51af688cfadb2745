/-
Eight Q4_K rows interleaved by `tn_q4k_repack_x8`, and `gemv8_q4k_x8_q8k`, which multiplies all of them with quantized
activations at once. Scales and activations are rational numbers.
-/
import BitForge.Kernel.Q4k

namespace BitForge.Q4kX8

open Finset BitForge.Lib BitForge.Lib.Simd BitForge.Q2Vnni BitForge.Quantize BitForge.Q4k

structure TnQ4KX8Block where
  d : Nat → Nat
  dmin : Nat → Nat
  scales : Nat → Nat
  qs : Nat → Nat

/-! ## `tn_q4k_repack_x8` -/

/-- `s[j]` of the sub-block `i`, from the twelve bytes of the row `j`. -/
def subScale (sc12 : Nat → Nat) (i : Nat) : Nat :=
  if i < 4 then sc12 i &&& 63
  else
    let i := i - 4
    ((sc12 i &&& 192) >>> 2) ||| (sc12 (i + 8) &&& 15)

/-- `m[j]` -/
def subMin (sc12 : Nat → Nat) (i : Nat) : Nat :=
  if i < 4 then sc12 (i + 4) &&& 63
  else
    let i := i - 4
    ((sc12 (i + 4) &&& 192) >>> 2) ||| ((sc12 (i + 8) &&& 240) >>> 4)

/-- `o[t]` -/
def packByte (s m : Nat → Nat) (t : Nat) : Nat :=
  if t < 4 then ((s t &&& 63) + (s (t + 4) &&& 48) <<< 2) % 256
  else if t < 8 then ((m (t - 4) &&& 63) + (m t &&& 48) <<< 2) % 256
  else ((s (t - 4) &&& 15) + (m (t - 4) &&& 15) <<< 4) % 256

/-- The block `b` of the eight rows. -/
def repackX8 (rows : Nat → Nat → Nat) (b : Nat) : TnQ4KX8Block where
  d r := dBits (block (rows r) b)
  dmin r := dminBits (block (rows r) b)
  scales t :=
    packByte (fun r => subScale (sc12 (block (rows r) b)) (t / 12)) (fun r => subMin (sc12 (block (rows r) b)) (t / 12)) (t % 12)
  qs t := qs (block (rows (t / 8 % 8)) b) (8 * (t / 64) + t % 8)

/-! ## `gemv8_q4k_x8_q8k`, the AVX2 body -/

section

variable (ob : TnQ4KX8Block) (act : Q8KActBlock ℚ)

/-- `rhs_raw_vec_0123_k` and `rhs_raw_vec_4567_k` -/
def rhsRaw0123 (sb k : Nat) : Nat → Nat := fun i => ob.qs (64 * k + sb * 256 + i)

def rhsRaw4567 (sb k : Nat) : Nat → Nat := fun i => ob.qs (64 * k + 32 + sb * 256 + i)

/-- The lower nibbles (`rhs_vec_*_0k`) and the upper ones (`rhs_vec_*_1k`). -/
def nibbles (h : Nat) (raw : Nat → Nat) : Nat → Nat :=
  if h = 0 then andSet1 raw 0x0F else andSet1 (srliEpi16 raw 4) 0x0F

/-- The first operand of the product `c` of `iacc_h`. -/
def weights (sb h c : Nat) : Nat → Nat :=
  let v0123 := nibbles h (rhsRaw0123 ob sb (c / 2))
  let v4567 := nibbles h (rhsRaw4567 ob sb (c / 2))
  if c % 2 = 0 then blendEpi32 v0123 (shuffleEpi32 4 v4567 177) 170
  else blendEpi32 (shuffleEpi32 4 v0123 177) v4567 170

/-- `lhs_vec_h0` and `lhs_vec_h1` -/
def lhsVec (sb h k : Nat) : Nat → Int := permute2f128Low 16 fun i => actQ act (32 * h + 16 * k + sb * 64 + i)

/-- The second operand of the product `c` of `iacc_h`. -/
def codes (sb h c : Nat) : Nat → Int := shuffleEpi32 4 (lhsVec act sb h (c / 4)) ([0, 85, 170, 255].getD (c % 4) 0)

/-- `iacc_h` after a number of products. -/
def iacc (sb h : Nat) : Nat → Nat → Int
  | 0 => fun _ => 0
  | c + 1 => addEpi16 (iacc sb h c) (maddubsEpi16 (weights ob sb h c) (codes act sb h c))

/-- The twelve bytes that `utmp_0` or `utmp_1` is decoded from. -/
def packedScales (off : Nat) : Nat → Nat := fun t => ob.scales (off + t)

def scalemask (t : Nat) : Nat := [0, 0, 4, 4, 1, 1, 5, 5, 2, 2, 6, 6, 3, 3, 7, 7].getD t 0

/-- `mins_and_scales_h` -/
def minsAndScalesX8 (sb h : Nat) : Nat → Nat := minsAndScales (packedScales ob (12 * h + sb * 24))

/-- `scales_h` -/
def scalesX8 (sb h : Nat) : Nat → Int := fun m => (shuffleEpi8 (minsAndScalesX8 ob sb h) scalemask m : Nat)

/-- `mins_01` -/
def mins01 (sb : Nat) : Nat → Int := fun m =>
  (unpackloEpi8 (shuffleEpi32 4 (minsAndScalesX8 ob sb 0) 78) (shuffleEpi32 4 (minsAndScalesX8 ob sb 1) 78) m : Nat)

/-- `iacc_h` after the multiplication with the scales. -/
def iaccScaled (sb h : Nat) : Nat → Int := maddEpi16 (iacc ob act sb h 8) (scalesX8 ob sb h)

/-- `iacc_sb` -/
def iaccSb (sb w : Nat) : Int := wrap 32 (iaccScaled ob act sb 0 w + iaccScaled ob act sb 1 w)

/-- `iacc_b` after all sub-blocks. -/
def iaccB (w : Nat) : Int := sum32 (fun sb => iaccSb ob act sb w) 4

/-- `q8s` before the sub-block `sb`. -/
def q8sShifted : Nat → Nat → Int
  | 0 => permute2f128Low 8 (q8s act)
  | sb + 1 => bsrliEpi128 (q8sShifted sb) 4

/-- `iacc_min_sb` -/
def iaccMinSb (sb : Nat) : Nat → Int := maddEpi16 (shuffleEpi32 2 (q8sShifted act sb) 0) (mins01 ob sb)

/-- `iacc_min_b` after all sub-blocks. -/
def iaccMinB (w : Nat) : Int := sum32 (fun sb => iaccMinSb ob act sb w) 4

def deltamask (t : Nat) : Nat := [0, 1, 8, 9, 2, 3, 10, 11, 4, 5, 12, 13, 6, 7, 14, 15].getD t 0

/-- The halves that are converted to `col_scale_f32`. -/
def colScaleBits (w : Nat) : Nat :=
  let shuffled := shuffleEpi8 (laneBytes ob.d) deltamask
  shuffled (2 * w) + 256 * shuffled (2 * w + 1)

/-- The halves that are converted to `col_dmin_f32`. -/
def colDminBits (w : Nat) : Nat := ob.dmin w

def finalpermutemask (t : Nat) : Nat := [0, 2, 4, 6, 1, 3, 5, 7].getD t 0

end

section

variable (bPtr : Nat → TnQ4KX8Block) (acts : Nat → Q8KActBlock ℚ)

/-- `acc_row` after a number of blocks. -/
def accRow : Nat → Nat → ℚ
  | 0 => fun _ => 0
  | b + 1 => fun w => (iaccB (bPtr b) (acts b) w : Int) * (cvtphPs (colScaleBits (bPtr b) w) * (acts b).d) + accRow b w

/-- `acc_min_rows` after a number of blocks. -/
def accMinRows : Nat → Nat → ℚ
  | 0 => fun _ => 0
  | b + 1 => fun w => (iaccMinB (bPtr b) (acts b) w : Int) * (cvtphPs (colDminBits (bPtr b) w) * (acts b).d) + accMinRows b w

/-- `out8` -/
def gemv8Avx2 (nb r : Nat) : ℚ := permutevar8x32 (accRow bPtr acts nb) finalpermutemask r - accMinRows bPtr acts nb r

end

/-! ## The scalar body -/

/-- The bits that a half is expanded to. -/
def scalarHalfBits (h : Nat) : Nat :=
  let sign := (h >>> 15) <<< 31
  let exp := (h >>> 10) &&& 0x1f
  -- a subnormal half becomes zero
  if exp = 0 then sign else sign ||| (exp + 112) <<< 23 ||| (h &&& 0x3ff) <<< 13

def scalarHalf (h : Nat) : ℚ := Ieee.value 8 23 (scalarHalfBits h)

section

variable (ob : TnQ4KX8Block) (act : Q8KActBlock ℚ)

/-- What is added to `sum`. -/
def scalarTerm (r i l : Nat) : Int :=
  let g := i / 2
  let rowByteOff := g * 32 + l
  let colGroup := rowByteOff / 8
  let byteInGroup := rowByteOff % 8
  let byte := ob.qs (colGroup * 64 + r * 8 + byteInGroup)
  let nib := if i % 2 ≠ 0 then byte >>> 4 else byte &&& 0x0F
  (nib : Int) * actQ act (i * 32 + l)

/-- `sc8` of the sub-block `i`. -/
def sc8 (i : Nat) : Nat → Nat := minsAndScales (packedScales ob (if i < 4 then i * 12 else 48 + (i - 4) * 12))

/-- What is added to `int_dot`. -/
def scalarDotTerm (r i : Nat) : Int := (sc8 ob i r : Int) * sum32 (scalarTerm ob act r i) 32

/-- What is added to `int_min`. -/
def scalarMinTerm (r j : Nat) : Int := (sc8 ob j (r + 8) : Int) * (bsum act (2 * j) + bsum act (2 * j + 1))

def scalarDot (r : Nat) : Int := sum32 (scalarDotTerm ob act r) 8

def scalarMin (r : Nat) : Int := sum32 (scalarMinTerm ob act r) 8

end

/-- `out8` without vector instructions. -/
def gemv8Scalar (bPtr : Nat → TnQ4KX8Block) (acts : Nat → Q8KActBlock ℚ) (r : Nat) : Nat → ℚ
  | 0 => 0
  | b + 1 => gemv8Scalar bPtr acts r b + (acts b).d * (scalarHalf ((bPtr b).d r) * (scalarDot (bPtr b) (acts b) r : Int) -
      scalarHalf ((bPtr b).dmin r) * (scalarMin (bPtr b) (acts b) r : Int))

/-! ## Packing -/

theorem subScale_eq {sc12 : Nat → Nat} (hb : ∀ i, sc12 i < 256) (i : Nat) : subScale sc12 i = rawSc sc12 i := by
  have hhigh : ∀ x < 256, (x &&& 192) >>> 2 = (x >>> 6) <<< 4 := by decide +kernel
  unfold subScale rawSc
  dsimp only
  split
  · rfl
  · rw [hhigh _ (hb _), Nat.or_comm]

theorem subMin_eq {sc12 : Nat → Nat} (hb : ∀ i, sc12 i < 256) (i : Nat) : subMin sc12 i = rawMn sc12 i := by
  have hhigh : ∀ x < 256, (x &&& 192) >>> 2 = (x >>> 6) <<< 4 := by decide +kernel
  have hlow : ∀ x < 256, (x &&& 240) >>> 4 = x >>> 4 := by decide +kernel
  unfold subMin rawMn
  dsimp only
  split
  · rfl
  · rw [hhigh _ (hb _), hlow _ (hb _), Nat.or_comm]

theorem packByte_lt (s m : Nat → Nat) (t : Nat) : packByte s m t < 256 := by
  unfold packByte
  split_ifs <;> exact Nat.mod_lt _ (by decide)

/-- A 6-bit number next to the upper two bits of another one. -/
theorem packHigh_eq {x y : Nat} (hx : x < 64) (hy : y < 64) :
    ((x &&& 63) + (y &&& 48) <<< 2) % 256 = x + 64 * (y / 16) := by
  have hhigh : ∀ y < 64, (y &&& 48) <<< 2 = 64 * (y / 16) := by decide +kernel
  rw [show x &&& 63 = x % 2 ^ 6 from Nat.and_two_pow_sub_one_eq_mod x 6, hhigh y hy]
  omega

/-- The lower four bits of two numbers. -/
theorem packLow_eq (x y : Nat) : ((x &&& 15) + (y &&& 15) <<< 4) % 256 = x % 16 + 16 * (y % 16) := by
  rw [show x &&& 15 = x % 2 ^ 4 from Nat.and_two_pow_sub_one_eq_mod x 4,
    show y &&& 15 = y % 2 ^ 4 from Nat.and_two_pow_sub_one_eq_mod y 4, Nat.shiftLeft_eq]
  omega

/-- Four lower bits with the rest of a 6-bit number above them. -/
theorem low_or_high {x : Nat} {y : Nat} (hx : x < 16) : x ||| y <<< 4 = x + 16 * y := by
  rw [Nat.or_comm, ← Nat.shiftLeft_add_eq_or_of_lt hx, Nat.shiftLeft_eq]
  omega

section

variable {s m : Nat → Nat} {r : Nat}

/-- What is packed is unpacked as the scales of one row are. -/
theorem rawSc_packByte (hs : ∀ r < 8, s r < 64) (hr : r < 8) : rawSc (packByte s m) r = s r := by
  have hsr := hs r hr
  unfold rawSc packByte
  dsimp only
  split
  · next hlow =>
    rw [packHigh_eq hsr (hs _ (by omega)), show ∀ x, x &&& 63 = x % 2 ^ 6 from fun x => Nat.and_two_pow_sub_one_eq_mod x 6]
    omega
  · next hhigh =>
    have hrest := hs (r - 4) (by omega)
    rw [if_neg (by omega), if_neg (by omega), if_pos (by omega), packLow_eq, show r - 4 + 4 = r by omega,
      packHigh_eq hrest hsr, show r - 4 + 8 - 4 = r by omega,
      show ∀ x, x &&& 0x0F = x % 2 ^ 4 from fun x => Nat.and_two_pow_sub_one_eq_mod x 4, low_or_high (by omega),
      Nat.shiftRight_eq_div_pow]
    omega

theorem rawMn_packByte (hm : ∀ r < 8, m r < 64) (hr : r < 8) : rawMn (packByte s m) r = m r := by
  have hmr := hm r hr
  unfold rawMn packByte
  dsimp only
  split
  · next hlow =>
    rw [if_neg (by omega), if_pos (by omega), show r + 4 - 4 = r by omega, packHigh_eq hmr (hm _ (by omega)),
      show ∀ x, x &&& 63 = x % 2 ^ 6 from fun x => Nat.and_two_pow_sub_one_eq_mod x 6]
    omega
  · next hhigh =>
    have hrest := hm (r - 4) (by omega)
    rw [if_neg (by omega), if_neg (by omega), if_neg (by omega), if_pos (by omega), packLow_eq, show r - 4 + 4 - 4 = r - 4 by omega,
      show r - 4 + 4 = r by omega, packHigh_eq hrest hmr, show r - 4 + 8 - 4 = r by omega, Nat.shiftRight_eq_div_pow,
      low_or_high (by omega), Nat.shiftRight_eq_div_pow]
    omega

end

theorem rawSc_congr {f g : Nat → Nat} (hfg : ∀ t < 12, f t = g t) {j : Nat} (hj : j < 8) : rawSc f j = rawSc g j := by
  unfold rawSc
  dsimp only
  split
  · rw [hfg j (by omega)]
  · rw [hfg _ (by omega), hfg _ (by omega)]

theorem rawMn_congr {f g : Nat → Nat} (hfg : ∀ t < 12, f t = g t) {j : Nat} (hj : j < 8) : rawMn f j = rawMn g j := by
  unfold rawMn
  dsimp only
  split
  · rw [hfg _ (by omega)]
  · rw [hfg _ (by omega), hfg _ (by omega)]

/-! ## The interleaved block -/

section

variable {rows : Nat → Nat → UInt8} {b : Nat}

/-- The bytes of all rows. -/
def bytesX8 (rows : Nat → Nat → UInt8) : Nat → Nat → Nat := fun r => bytesOf (rows r)

/-- The block `b` of the row `r`. -/
def rowBlock (rows : Nat → Nat → UInt8) (b r : Nat) : Nat → Nat := block (bytesOf (rows r)) b

theorem rowBlock_lt (rows : Nat → Nat → UInt8) (b r i : Nat) : rowBlock rows b r i < 256 := block_lt (rows r) b i

theorem repackX8_qs {t r j : Nat} (hr : t / 8 % 8 = r) (hj : 8 * (t / 64) + t % 8 = j) :
    (repackX8 (bytesX8 rows) b).qs t = qs (rowBlock rows b r) j := by
  subst hr hj
  rfl

/-- Scale and minimum of a row, out of the packed bytes of the sub-block `i`. -/
theorem minsAndScales_repackX8 {i off l : Nat} (hoff : off = 12 * i) (hl : l < 16) :
    minsAndScales (packedScales (repackX8 (bytesX8 rows) b) off) l =
      if l < 8 then rawSc (sc12 (rowBlock rows b l)) i else rawMn (sc12 (rowBlock rows b (l - 8))) i := by
  subst hoff
  let s := fun r => subScale (sc12 (rowBlock rows b r)) i
  let m := fun r => subMin (sc12 (rowBlock rows b r)) i
  have hbytes : ∀ r, ∀ t, sc12 (rowBlock rows b r) t < 256 := fun r t => rowBlock_lt rows b r _
  have hpacked : ∀ t < 12, packedScales (repackX8 (bytesX8 rows) b) (12 * i) t = packByte s m t := by
    intro t ht
    show packByte (fun r => subScale (sc12 (rowBlock rows b r)) ((12 * i + t) / 12))
      (fun r => subMin (sc12 (rowBlock rows b r)) ((12 * i + t) / 12)) ((12 * i + t) % 12) = _
    rw [show (12 * i + t) / 12 = i by omega, show (12 * i + t) % 12 = t by omega]
  have hs : ∀ r < 8, s r < 64 := fun r _ => (subScale_eq (hbytes r) i).trans_lt (rawSc_lt _ (hbytes r) i)
  have hm : ∀ r < 8, m r < 64 := fun r _ => (subMin_eq (hbytes r) i).trans_lt (rawMn_lt _ (hbytes r) i)
  have hbyte : ∀ t, packedScales (repackX8 (bytesX8 rows) b) (12 * i) t < 256 := by
    intro t
    unfold packedScales repackX8
    dsimp only
    exact packByte_lt _ _ _
  rw [minsAndScales_eq hbyte hl]
  split
  · next hlow =>
    rw [rawSc_congr hpacked hlow, rawSc_packByte hs hlow]
    exact subScale_eq (hbytes l) i
  · rw [rawMn_congr hpacked (by omega), rawMn_packByte hm (by omega)]
    exact subMin_eq (hbytes (l - 8)) i

/-! ## The lanes of the products -/

/-- The row in a lane of 32 bits. -/
def rowOf (w : Nat) : Nat := w / 2 + 4 * (w % 2)

/-- A nibble of a byte: the lower one, or the upper one. -/
def nibble (h x : Nat) : Nat := if h = 0 then x &&& 0x0F else x >>> 4

theorem nibble_lt {x : Nat} (hx : x < 256) (h : Nat) : nibble h x < 16 := by
  unfold nibble
  split
  · exact Nat.and_lt_two_pow _ (show 0x0F < 2 ^ 4 by decide)
  · rw [Nat.shiftRight_eq_div_pow]
    omega

theorem nibbles_eq {raw : Nat → Nat} (hraw : ∀ i, raw i < 256) (h i : Nat) : nibbles h raw i = nibble h (raw i) := by
  unfold nibbles nibble
  split
  · rfl
  · rw [Nat.shiftRight_eq_div_pow]
    exact srliEpi16_nibble hraw i

theorem repackX8_qs_lt (t : Nat) : (repackX8 (bytesX8 rows) b).qs t < 256 := rowBlock_lt rows b _ _

/-- A nibble of the interleaved bytes is one of a row. -/
theorem nibbles_qs {raw : Nat → Nat} {base h t r j : Nat} (hraw : ∀ i, raw i = (repackX8 (bytesX8 rows) b).qs (base + i))
    (hr : (base + t) / 8 % 8 = r) (hj : 8 * ((base + t) / 64) + (base + t) % 8 = j) :
    nibbles h raw t = nibble h (qs (rowBlock rows b r) j) := by
  have hbyte : ∀ i, raw i < 256 := fun i => (hraw i).trans_lt (repackX8_qs_lt _)
  rw [nibbles_eq hbyte, hraw, repackX8_qs hr hj]

/-- The two blends have four bytes of each row, in the order of `rowOf`. -/
theorem weights_eq {sb h c i : Nat} (hi : i < 32) :
    weights (repackX8 (bytesX8 rows) b) sb h c i =
      nibble h (qs (rowBlock rows b (rowOf (i / 4))) (32 * sb + 4 * c + i % 4)) := by
  have hblend : ∀ w < 8, 170 / 2 ^ w % 2 = w % 2 := by decide
  have hshuffle : ∀ w < 4, 177 / 4 ^ w % 4 = w + 1 - 2 * (w % 2) := by decide
  unfold weights rowOf
  -- the other half of the rows is in the neighbouring lane, on whichever side the blend takes it
  split
  all_goals
    unfold blendEpi32 shuffleEpi32
    rw [hblend (i / 4) (by omega), hshuffle (i / 4 % 4) (by omega)]
    split
    · exact nibbles_qs (fun _ => rfl) (by omega) (by omega)
    · exact nibbles_qs (fun _ => rfl) (by omega) (by omega)

end

section

variable {rows : Nat → Nat → UInt8} {b : Nat} {act : Q8KActBlock ℚ}

theorem codes_eq (act : Q8KActBlock ℚ) {sb h c i : Nat} :
    codes act sb h c i = actQ act (64 * sb + 32 * h + 4 * c + i % 4) := by
  have himm : ∀ k < 4, [0, 85, 170, 255].getD k 0 = 85 * k := by decide
  have hlane : ∀ k < 4, ∀ w < 4, 85 * k / 4 ^ w % 4 = k := by decide
  unfold codes lhsVec shuffleEpi32 permute2f128Low
  rw [himm _ (by omega), hlane _ (by omega) _ (by omega)]
  dsimp only
  congr 1
  omega

theorem weights_lt {sb h c i : Nat} (hi : i < 32) : weights (repackX8 (bytesX8 rows) b) sb h c i < 16 := by
  rw [weights_eq hi]
  exact nibble_lt (rowBlock_lt rows b _ _) h

theorem codes_bounds (hact : IsAct act) {sb h c i : Nat} (hsb : sb < 4) (hh : h < 2) (hc : c < 8) :
    -128 ≤ codes act sb h c i ∧ codes act sb h c i ≤ 127 := by
  rw [codes_eq act]
  exact hact.codes _ (by omega)

theorem scaleTerm_nibble (blk : Nat → Nat) (act : Q8KActBlock ℚ) {sb h : Nat} (hh : h < 2) (l : Nat) :
    scaleTerm blk act (2 * sb + h) l = (nibble h (qs blk (32 * sb + l)) : Int) * actQ act (64 * sb + 32 * h + l) := by
  unfold nibble
  rcases (show h = 0 ∨ h = 1 by omega) with rfl | rfl
  · rw [Nat.add_zero, scaleTerm_even, if_pos rfl, show 64 * sb + 32 * 0 + l = sb * 64 + l by ring, Nat.mul_comm 32 sb]
    rfl
  · rw [scaleTerm_odd, if_neg (by decide), show 64 * sb + 32 * 1 + l = sb * 64 + 32 + l by ring, Nat.mul_comm 32 sb]
    rfl

/-! ## The sums of 16 bits -/

/-- Two products of the sub-block `i`, in the lane of the parity `p`. -/
def pairTerm (blk : Nat → Nat) (act : Q8KActBlock ℚ) (i p c : Nat) : Int :=
  scaleTerm blk act i (4 * c + 2 * p) + scaleTerm blk act i (4 * c + 2 * p + 1)

theorem pairTerm_le {blk : Nat → Nat} (hblk : ∀ i, blk i < 256) (hact : IsAct act) {i p c : Nat} (hi : i < 8) (hp : p < 2)
    (hc : c < 8) : |pairTerm blk act i p c| ≤ (2 * (15 * 128) : Nat) :=
  abs_add_le_two (scaleTerm_le hblk hact hi _ (by omega)) (scaleTerm_le hblk hact hi _ (by omega))

theorem sum_pairTerm (blk : Nat → Nat) (act : Q8KActBlock ℚ) (i : Nat) :
    ∑ c ∈ range 8, pairTerm blk act i 0 c + ∑ c ∈ range 8, pairTerm blk act i 1 c = ∑ l ∈ range 32, scaleTerm blk act i l := by
  rw [← sum_groups (scaleTerm blk act i) 4 8, ← sum_add_distrib]
  refine sum_congr rfl fun c _ => ?_
  simp only [sum_range_succ, sum_range_zero, zero_add]
  exact (add_assoc _ _ _).symm

/-- A part of the pairs of a lane. -/
theorem sum_pairTerm_fits {blk : Nat → Nat} (hblk : ∀ i, blk i < 256) (hact : IsAct act) {i p n : Nat} (hi : i < 8) (hp : p < 2)
    (hn : n ≤ 8) : Fits 16 (∑ c ∈ range n, pairTerm blk act i p c) :=
  fits_of_abs (abs_sum_le_mul fun _ hc => pairTerm_le hblk hact hi hp (hc.trans_le hn))
    ((Nat.mul_le_mul_right _ hn).trans_lt (by decide))

theorem product_fits (hact : IsAct act) {sb h c : Nat} (hsb : sb < 4) (hh : h < 2) (hc : c < 8) :
    MaddubsFits (weights (repackX8 (bytesX8 rows) b) sb h c) (codes act sb h c) 16 :=
  maddubs_fits (fun _ hi => weights_lt hi) fun _ _ => codes_bounds hact hsb hh hc

theorem product_eq (hact : IsAct act) {sb h c m : Nat} (hsb : sb < 4) (hh : h < 2) (hc : c < 8) (hm : m < 16) :
    maddubsEpi16 (weights (repackX8 (bytesX8 rows) b) sb h c) (codes act sb h c) m =
      pairTerm (rowBlock rows b (rowOf (m / 2))) act (2 * sb + h) (m % 2) c := by
  unfold pairTerm
  rw [maddubsEpi16_eq (product_fits hact hsb hh hc) hm, weights_eq (by omega), weights_eq (by omega), codes_eq act,
    codes_eq act, scaleTerm_nibble _ _ hh, scaleTerm_nibble _ _ hh, show 2 * m / 4 = m / 2 by omega,
    show (2 * m + 1) / 4 = m / 2 by omega, show 2 * m % 4 = 2 * (m % 2) by omega, show (2 * m + 1) % 4 = 2 * (m % 2) + 1 by omega]
  simp only [Nat.add_assoc]

theorem iacc_eq (hact : IsAct act) {sb h m : Nat} (hsb : sb < 4) (hh : h < 2) (hm : m < 16) : ∀ {n : Nat}, n ≤ 8 →
    iacc (repackX8 (bytesX8 rows) b) act sb h n m =
      ∑ c ∈ range n, pairTerm (rowBlock rows b (rowOf (m / 2))) act (2 * sb + h) (m % 2) c
  | 0, _ => rfl
  | n + 1, hn => by
    -- a partial sum of eight pairs of nibbles and codes is at most 30720
    unfold iacc addEpi16
    rw [iacc_eq hact hsb hh hm (by omega), product_eq hact hsb hh hn hm, ← sum_range_succ]
    exact wrap_of_fits (sum_pairTerm_fits (rowBlock_lt rows b _) hact (by omega) (Nat.mod_lt _ (by decide)) hn)

theorem sums_fit (hact : IsAct act) {sb h c m : Nat} (hsb : sb < 4) (hh : h < 2) (hc : c < 8) (hm : m < 16) :
    Fits 16 (iacc (repackX8 (bytesX8 rows) b) act sb h c m +
      maddubsEpi16 (weights (repackX8 (bytesX8 rows) b) sb h c) (codes act sb h c) m) := by
  rw [iacc_eq hact hsb hh hm hc.le, product_eq hact hsb hh hc hm, ← sum_range_succ]
  exact sum_pairTerm_fits (rowBlock_lt rows b _) hact (by omega) (Nat.mod_lt _ (by decide)) hc

/-! ## The products with the scales -/

theorem rowOf_lt {w : Nat} (hw : w < 8) : rowOf w < 8 := by
  unfold rowOf
  omega

theorem scalesX8_eq {sb h m : Nat} (hm : m < 16) :
    scalesX8 (repackX8 (bytesX8 rows) b) sb h m = rawSc (sc12 (rowBlock rows b (rowOf (m / 2)))) (2 * sb + h) := by
  have hmask : ∀ m < 16, scalemask m = rowOf (m / 2) := by decide
  have hrow : rowOf (m / 2) < 8 := rowOf_lt (by omega)
  unfold scalesX8 minsAndScalesX8
  rw [shuffleEpi8_eq (hmask m hm) (by omega), show 16 * (m / 16) + rowOf (m / 2) % 16 = rowOf (m / 2) by omega,
    minsAndScales_repackX8 (i := 2 * sb + h) (by ring) (by omega), if_pos hrow]

theorem scaled_sum (hact : IsAct act) {sb h w : Nat} (hsb : sb < 4) (hh : h < 2) (hw : w < 8) :
    iacc (repackX8 (bytesX8 rows) b) act sb h 8 (2 * w) * scalesX8 (repackX8 (bytesX8 rows) b) sb h (2 * w) +
        iacc (repackX8 (bytesX8 rows) b) act sb h 8 (2 * w + 1) * scalesX8 (repackX8 (bytesX8 rows) b) sb h (2 * w + 1) =
      dotTerm (rowBlock rows b (rowOf w)) act (2 * sb + h) := by
  rw [iacc_eq hact hsb hh (by omega) le_rfl, iacc_eq hact hsb hh (by omega) le_rfl, scalesX8_eq (by omega), scalesX8_eq (by omega),
    dotTerm_eq (rowBlock_lt rows b _) hact (by omega), show 2 * w / 2 = w by omega, show (2 * w + 1) / 2 = w by omega,
    show 2 * w % 2 = 0 by omega, show (2 * w + 1) % 2 = 1 by omega, ← add_mul, sum_pairTerm, mul_comm]

theorem scaled_fits (hact : IsAct act) {sb h : Nat} (hsb : sb < 4) (hh : h < 2) :
    MaddFits (iacc (repackX8 (bytesX8 rows) b) act sb h 8) (scalesX8 (repackX8 (bytesX8 rows) b) sb h) 8 := by
  intro w hw
  rw [scaled_sum hact hsb hh hw]
  exact fits_of_abs (dotTerm_le (rowBlock_lt rows b _) hact _ (by omega)) (by decide)

theorem iaccScaled_eq (hact : IsAct act) {sb h w : Nat} (hsb : sb < 4) (hh : h < 2) (hw : w < 8) :
    iaccScaled (repackX8 (bytesX8 rows) b) act sb h w = dotTerm (rowBlock rows b (rowOf w)) act (2 * sb + h) :=
  (maddEpi16_eq (scaled_fits hact hsb hh) hw).trans (scaled_sum hact hsb hh hw)

/-! ## The sums of 32 bits -/

theorem halvesX8_le (hact : IsAct act) {sb w : Nat} (hsb : sb < 4) (hw : w < 8) :
    |iaccScaled (repackX8 (bytesX8 rows) b) act sb 0 w + iaccScaled (repackX8 (bytesX8 rows) b) act sb 1 w| ≤
      (2 * (63 * (32 * (15 * 128))) : Nat) := by
  have hterm := dotTerm_le (rowBlock_lt rows b (rowOf w)) hact
  rw [iaccScaled_eq hact hsb (by decide) hw, iaccScaled_eq hact hsb (by decide) hw]
  exact abs_add_le_two (hterm _ (by omega)) (hterm _ (by omega))

theorem iaccSb_eq (hact : IsAct act) {sb w : Nat} (hsb : sb < 4) (hw : w < 8) :
    iaccSb (repackX8 (bytesX8 rows) b) act sb w =
      iaccScaled (repackX8 (bytesX8 rows) b) act sb 0 w + iaccScaled (repackX8 (bytesX8 rows) b) act sb 1 w :=
  wrap_of_fits (fits_of_abs (halvesX8_le hact hsb hw) (by decide))

theorem iaccSb_le (hact : IsAct act) {w : Nat} (hw : w < 8) :
    ∀ sb < 4, |iaccSb (repackX8 (bytesX8 rows) b) act sb w| ≤ (2 * (63 * (32 * (15 * 128))) : Nat) := by
  intro sb hsb
  rw [iaccSb_eq hact hsb hw]
  exact halvesX8_le hact hsb hw

/-- A lane of `iacc_b` is `int_dot` of the row in the lane. -/
theorem iaccB_eq (hact : IsAct act) {w : Nat} (hw : w < 8) :
    iaccB (repackX8 (bytesX8 rows) b) act w = intDot (rowBlock rows b (rowOf w)) act := by
  let blk := rowBlock rows b (rowOf w)
  have hlane : ∀ sb ∈ range 4, iaccSb (repackX8 (bytesX8 rows) b) act sb w = ∑ t ∈ range 2, dotTerm blk act (2 * sb + t) := by
    intro sb hsb
    have hsb4 := mem_range.1 hsb
    rw [iaccSb_eq hact hsb4 hw, iaccScaled_eq hact hsb4 (by decide) hw, iaccScaled_eq hact hsb4 (by decide) hw, sum_range_two]
  unfold iaccB intDot
  rw [sum32_eq (iaccSb_le hact hw) (by decide), sum32_eq (dotTerm_le (rowBlock_lt rows b _) hact) (by decide),
    sum_congr rfl hlane, sum_groups (dotTerm blk act) 2 4]

/-! ## The minima -/

theorem q8sShifted_eq (act : Q8KActBlock ℚ) : ∀ {sb i : Nat}, i % 8 + 2 * sb < 8 → q8sShifted act sb i = q8s act (i % 8 + 2 * sb)
  | 0, _, _ => rfl
  | sb + 1, i, hi => by
    unfold q8sShifted bsrliEpi128
    -- each shift by four bytes drops the two sums of the sub-block before
    rw [if_pos (by omega), q8sShifted_eq act (by omega)]
    congr 1
    omega

theorem q8sPair_eq (hact : IsAct act) {sb m : Nat} (hsb : sb < 4) :
    shuffleEpi32 2 (q8sShifted act sb) 0 m = bsum act (2 * (2 * sb + m % 2)) + bsum act (2 * (2 * sb + m % 2) + 1) := by
  unfold shuffleEpi32
  rw [Nat.zero_div, q8sShifted_eq act (by omega), q8s_eq hact (by omega),
    show (4 * 2 * (m / (4 * 2)) + 2 * (0 % 4) + m % 2) % 8 + 2 * sb = 2 * sb + m % 2 by omega]

theorem mins01_eq {sb m : Nat} (hm : m < 16) :
    mins01 (repackX8 (bytesX8 rows) b) sb m = rawMn (sc12 (rowBlock rows b (m / 2))) (2 * sb + m % 2) := by
  have himm : ∀ w < 2, 78 / 4 ^ w % 4 = w + 2 := by decide
  have hupper : ∀ h, shuffleEpi32 4 (minsAndScalesX8 (repackX8 (bytesX8 rows) b) sb h) 78 (m / 2) =
      rawMn (sc12 (rowBlock rows b (m / 2))) (2 * sb + h) := by
    intro h
    unfold shuffleEpi32 minsAndScalesX8
    rw [himm _ (by omega), minsAndScales_repackX8 (i := 2 * sb + h) (by ring) (by omega), if_neg (by omega)]
    congr 3
    omega
  unfold mins01 unpackloEpi8
  split
  · next heven => rw [hupper 0, heven]
  · next hodd => rw [hupper 1, show m % 2 = 1 by omega]

theorem min_sum (hact : IsAct act) {sb w : Nat} (hsb : sb < 4) (hw : w < 8) :
    shuffleEpi32 2 (q8sShifted act sb) 0 (2 * w) * mins01 (repackX8 (bytesX8 rows) b) sb (2 * w) +
        shuffleEpi32 2 (q8sShifted act sb) 0 (2 * w + 1) * mins01 (repackX8 (bytesX8 rows) b) sb (2 * w + 1) =
      minTerm (rowBlock rows b w) act (2 * sb) + minTerm (rowBlock rows b w) act (2 * sb + 1) := by
  rw [q8sPair_eq hact hsb, q8sPair_eq hact hsb, mins01_eq (by omega), mins01_eq (by omega), show 2 * w / 2 = w by omega,
    show (2 * w + 1) / 2 = w by omega, show 2 * w % 2 = 0 by omega, show (2 * w + 1) % 2 = 1 by omega]
  exact congrArg₂ (· + ·) (mul_comm _ _) (mul_comm _ _)

theorem minsX8_fit (hact : IsAct act) {sb : Nat} (hsb : sb < 4) :
    MaddFits (shuffleEpi32 2 (q8sShifted act sb) 0) (mins01 (repackX8 (bytesX8 rows) b) sb) 8 := by
  intro w hw
  rw [min_sum hact hsb hw]
  exact fits_of_abs (minPair_le (rowBlock_lt rows b w) hact hsb) (by decide)

theorem iaccMinSb_eq (hact : IsAct act) {sb w : Nat} (hsb : sb < 4) (hw : w < 8) :
    iaccMinSb (repackX8 (bytesX8 rows) b) act sb w =
      minTerm (rowBlock rows b w) act (2 * sb) + minTerm (rowBlock rows b w) act (2 * sb + 1) :=
  (maddEpi16_eq (minsX8_fit hact hsb) hw).trans (min_sum hact hsb hw)

theorem iaccMinSb_le (hact : IsAct act) {w : Nat} (hw : w < 8) :
    ∀ sb < 4, |iaccMinSb (repackX8 (bytesX8 rows) b) act sb w| ≤ (2 * (63 * (2 * (16 * 128))) : Nat) := by
  intro sb hsb
  rw [iaccMinSb_eq hact hsb hw]
  exact minPair_le (rowBlock_lt rows b w) hact hsb

/-- A lane of `iacc_min_b` is `int_min` of the row of the same number. -/
theorem iaccMinB_eq (hact : IsAct act) {w : Nat} (hw : w < 8) :
    iaccMinB (repackX8 (bytesX8 rows) b) act w = intMin (rowBlock rows b w) act := by
  have hlane : ∀ sb ∈ range 4, iaccMinSb (repackX8 (bytesX8 rows) b) act sb w =
      ∑ t ∈ range 2, minTerm (rowBlock rows b w) act (2 * sb + t) := by
    intro sb hsb
    rw [iaccMinSb_eq hact (mem_range.1 hsb) hw, sum_range_two]
    rfl
  unfold iaccMinB
  rw [sum32_eq (iaccMinSb_le hact hw) (by decide), intMin_eq (rowBlock_lt rows b w) hact, sum_congr rfl hlane,
    sum_groups (minTerm (rowBlock rows b w) act) 2 4]

/-! ## The scales of the rows -/

theorem rowOf_finalpermutemask {r : Nat} (hr : r < 8) : finalpermutemask r < 8 ∧ rowOf (finalpermutemask r) = r := by
  have hall : ∀ r < 8, finalpermutemask r < 8 ∧ rowOf (finalpermutemask r) = r := by decide
  exact hall r hr

theorem colScaleBits_eq {w : Nat} (hw : w < 8) :
    colScaleBits (repackX8 (bytesX8 rows) b) w = dBits (rowBlock rows b (rowOf w)) := by
  have heven : ∀ w < 8, deltamask (2 * w) = 2 * rowOf w := by decide
  have hodd : ∀ w < 8, deltamask (2 * w + 1) = 2 * rowOf w + 1 := by decide
  have hrow := rowOf_lt hw
  have hlow := rowBlock_lt rows b (rowOf w) 0
  have hhigh := rowBlock_lt rows b (rowOf w) 1
  have hbits : (repackX8 (bytesX8 rows) b).d (rowOf w) = rowBlock rows b (rowOf w) 0 + 256 * rowBlock rows b (rowOf w) 1 := rfl
  -- both bytes of a half stay together, in the order of `rowOf`
  unfold colScaleBits
  dsimp only
  rw [shuffleEpi8_eq (heven w hw) (by omega), shuffleEpi8_eq (hodd w hw) (by omega),
    show 16 * (2 * w / 16) + 2 * rowOf w % 16 = 2 * rowOf w by omega,
    show 16 * ((2 * w + 1) / 16) + (2 * rowOf w + 1) % 16 = 2 * rowOf w + 1 by omega]
  unfold laneBytes byteOf dBits
  rw [show 2 * rowOf w / 2 = rowOf w by omega, show (2 * rowOf w + 1) / 2 = rowOf w by omega, show 2 * rowOf w % 2 = 0 by omega,
    show (2 * rowOf w + 1) % 2 = 1 by omega, hbits, pow_zero, pow_one]
  omega

/-! ## The scalar terms -/

theorem sum32_congr {f g : Nat → Int} : ∀ {n : Nat}, (∀ t < n, f t = g t) → sum32 f n = sum32 g n
  | 0, _ => rfl
  | n + 1, hfg => by
    unfold sum32
    rw [sum32_congr fun t ht => hfg t (by omega), hfg n (by omega)]

theorem scalarTerm_eq (act : Q8KActBlock ℚ) {r i : Nat} (hr : r < 8) (l : Nat) :
    scalarTerm (repackX8 (bytesX8 rows) b) act r i l = scaleTerm (rowBlock rows b r) act i l := by
  have hbyte : ∀ k, (repackX8 (bytesX8 rows) b).qs (k / 8 * 64 + r * 8 + k % 8) = qs (rowBlock rows b r) k :=
    fun k => repackX8_qs (by omega) (by omega)
  unfold scalarTerm
  dsimp only
  rw [hbyte]
  rcases Nat.even_or_odd' i with ⟨g, rfl | rfl⟩
  · rw [scaleTerm_even, if_neg (by omega), show 2 * g / 2 = g by omega, show 2 * g * 32 + l = g * 64 + l by ring]
    rfl
  · rw [scaleTerm_odd, if_pos (by omega), show (2 * g + 1) / 2 = g by omega, show (2 * g + 1) * 32 + l = g * 64 + 32 + l by ring]
    rfl

theorem sc8_eq (i : Nat) {l : Nat} (hl : l < 16) :
    sc8 (repackX8 (bytesX8 rows) b) i l =
      if l < 8 then rawSc (sc12 (rowBlock rows b l)) i else rawMn (sc12 (rowBlock rows b (l - 8))) i := by
  unfold sc8
  refine minsAndScales_repackX8 ?_ hl
  split <;> omega

theorem scalarDotTerm_eq (act : Q8KActBlock ℚ) {r : Nat} (hr : r < 8) (i : Nat) :
    scalarDotTerm (repackX8 (bytesX8 rows) b) act r i = dotTerm (rowBlock rows b r) act i := by
  unfold scalarDotTerm dotTerm
  rw [sc8_eq i (by omega), if_pos hr, sum32_congr fun l _ => scalarTerm_eq act hr l]

theorem scalarMinTerm_eq (act : Q8KActBlock ℚ) {r : Nat} (hr : r < 8) (j : Nat) :
    scalarMinTerm (repackX8 (bytesX8 rows) b) act r j = minTerm (rowBlock rows b r) act j := by
  unfold scalarMinTerm minTerm
  rw [sc8_eq j (by omega), if_neg (by omega), Nat.add_sub_cancel]

end

/-! ## The outputs -/

/-- All 16- and 32-bit values that the two bodies make of an interleaved block. -/
structure NoOverflowX8 (ob : TnQ4KX8Block) (act : Q8KActBlock ℚ) : Prop where
  pairs : ∀ sb < 4, ∀ h < 2, ∀ c < 8, MaddubsFits (weights ob sb h c) (codes act sb h c) 16
  sums : ∀ sb < 4, ∀ h < 2, ∀ c < 8, ∀ m < 16,
    Fits 16 (iacc ob act sb h c m + maddubsEpi16 (weights ob sb h c) (codes act sb h c) m)
  scaled : ∀ sb < 4, ∀ h < 2, MaddFits (iacc ob act sb h 8) (scalesX8 ob sb h) 8
  halves : ∀ sb < 4, ∀ w < 8, Fits 32 (iaccScaled ob act sb 0 w + iaccScaled ob act sb 1 w)
  lanes : ∀ w < 8, Sum32Fits (fun sb => iaccSb ob act sb w) 4
  bsums : HaddFits (bsum act) 8
  mins : ∀ sb < 4, MaddFits (shuffleEpi32 2 (q8sShifted act sb) 0) (mins01 ob sb) 8
  minLanes : ∀ w < 8, Sum32Fits (fun sb => iaccMinSb ob act sb w) 4
  products : ∀ r < 8, ∀ i < 8, Sum32Fits (scalarTerm ob act r i) 32
  dots : ∀ r < 8, Sum32Fits (scalarDotTerm ob act r) 8
  minSums : ∀ r < 8, Sum32Fits (scalarMinTerm ob act r) 8

/-- What the two bodies attribute to the output `r`: the integers of a row, with the bits of its scales. -/
structure Attributes (ob : TnQ4KX8Block) (act : Q8KActBlock ℚ) (blk : Nat → Nat) (r : Nat) : Prop where
  dot : iaccB ob act (finalpermutemask r) = intDot blk act
  min : iaccMinB ob act r = intMin blk act
  scale : colScaleBits ob (finalpermutemask r) = dBits blk
  minScale : colDminBits ob r = dminBits blk
  scalarDot : scalarDot ob act r = intDot blk act
  scalarMin : scalarMin ob act r = intMin blk act
  scalarScale : ob.d r = dBits blk
  scalarMinScale : ob.dmin r = dminBits blk

section

variable {rows : Nat → Nat → UInt8} {acts : Nat → Q8KActBlock ℚ}

theorem noOverflowX8 (b : Nat) {act : Q8KActBlock ℚ} (hact : IsAct act) : NoOverflowX8 (repackX8 (bytesX8 rows) b) act where
  pairs _ hsb _ hh _ hc := product_fits hact hsb hh hc
  sums _ hsb _ hh _ hc _ hm := sums_fit hact hsb hh hc hm
  scaled _ hsb _ hh := scaled_fits hact hsb hh
  halves _ hsb _ hw := fits_of_abs (halvesX8_le hact hsb hw) (by decide)
  lanes _ hw := sum32Fits_of_abs (iaccSb_le hact hw) (by decide) (by decide)
  bsums := hadd_fits hact
  mins _ hsb := minsX8_fit hact hsb
  minLanes _ hw := sum32Fits_of_abs (iaccMinSb_le hact hw) (by decide) (by decide)
  products r hr i hi := by
    have hterm : scalarTerm (repackX8 (bytesX8 rows) b) act r i = scaleTerm (rowBlock rows b r) act i := funext (scalarTerm_eq act hr)
    rw [hterm]
    exact sum32Fits_of_abs (scaleTerm_le (rowBlock_lt rows b r) hact hi) (by decide) (by decide)
  dots r hr := by
    have hterm : scalarDotTerm (repackX8 (bytesX8 rows) b) act r = dotTerm (rowBlock rows b r) act := funext (scalarDotTerm_eq act hr)
    rw [hterm]
    exact sum32Fits_of_abs (dotTerm_le (rowBlock_lt rows b r) hact) (by decide) (by decide)
  minSums r hr := by
    have hterm : scalarMinTerm (repackX8 (bytesX8 rows) b) act r = minTerm (rowBlock rows b r) act := funext (scalarMinTerm_eq act hr)
    rw [hterm]
    exact sum32Fits_of_abs (minTerm_le (rowBlock_lt rows b r) hact) (by decide) (by decide)

theorem attributes (b : Nat) {act : Q8KActBlock ℚ} (hact : IsAct act) {r : Nat} (hr : r < 8) :
    Attributes (repackX8 (bytesX8 rows) b) act (rowBlock rows b r) r := by
  obtain ⟨hlane, hrow⟩ := rowOf_finalpermutemask hr
  exact {
    dot := by rw [iaccB_eq hact hlane, hrow]
    min := iaccMinB_eq hact hr
    scale := by rw [colScaleBits_eq hlane, hrow]
    minScale := rfl
    scalarDot := sum32_congr fun i _ => scalarDotTerm_eq act hr i
    scalarMin := sum32_congr fun j _ => scalarMinTerm_eq act hr j
    scalarScale := rfl
    scalarMinScale := rfl }

/-- What a block of a row adds, for a conversion of its scales. -/
def blockDotWith (half : Nat → ℚ) (blk : Nat → Nat) (act : Q8KActBlock ℚ) : ℚ :=
  act.d * (half (dBits blk) * (intDot blk act : Int) - half (dminBits blk) * (intMin blk act : Int))

theorem accRow_eq (bPtr : Nat → TnQ4KX8Block) (acts : Nat → Q8KActBlock ℚ) (w : Nat) : ∀ n : Nat,
    accRow bPtr acts n w = ∑ b ∈ range n, (iaccB (bPtr b) (acts b) w : Int) * (cvtphPs (colScaleBits (bPtr b) w) * (acts b).d)
  | 0 => rfl
  | n + 1 => by
    unfold accRow
    rw [sum_range_succ, ← accRow_eq bPtr acts w n]
    exact add_comm _ _

theorem accMinRows_eq (bPtr : Nat → TnQ4KX8Block) (acts : Nat → Q8KActBlock ℚ) (w : Nat) : ∀ n : Nat,
    accMinRows bPtr acts n w = ∑ b ∈ range n, (iaccMinB (bPtr b) (acts b) w : Int) * (cvtphPs (colDminBits (bPtr b) w) * (acts b).d)
  | 0 => rfl
  | n + 1 => by
    unfold accMinRows
    rw [sum_range_succ, ← accMinRows_eq bPtr acts w n]
    exact add_comm _ _

theorem gemv8Avx2_eq {n r : Nat} (hacts : ∀ b < n, IsAct (acts b)) (hr : r < 8) :
    gemv8Avx2 (repackX8 (bytesX8 rows)) acts n r = ∑ b ∈ range n, blockDotWith cvtphPs (rowBlock rows b r) (acts b) := by
  have hlane := (rowOf_finalpermutemask hr).1
  unfold gemv8Avx2 permutevar8x32
  rw [Nat.mod_eq_of_lt hlane, accRow_eq, accMinRows_eq, ← sum_sub_distrib]
  refine sum_congr rfl fun b hb => ?_
  have hrow : Attributes (repackX8 (bytesX8 rows) b) (acts b) (rowBlock rows b r) r := attributes b (hacts b (mem_range.1 hb)) hr
  unfold blockDotWith
  rw [hrow.dot, hrow.min, hrow.scale, hrow.minScale]
  ring

theorem gemv8Scalar_eq {r : Nat} (hr : r < 8) : ∀ {n : Nat}, (∀ b < n, IsAct (acts b)) →
    gemv8Scalar (repackX8 (bytesX8 rows)) acts r n = ∑ b ∈ range n, blockDotWith scalarHalf (rowBlock rows b r) (acts b)
  | 0, _ => rfl
  | n + 1, hacts => by
    have hrow : Attributes (repackX8 (bytesX8 rows) n) (acts n) (rowBlock rows n r) r := attributes n (hacts n (by omega)) hr
    unfold gemv8Scalar
    rw [sum_range_succ, gemv8Scalar_eq hr fun b hb => hacts b (by omega), hrow.scalarDot, hrow.scalarMin, hrow.scalarScale,
      hrow.scalarMinScale]
    rfl

/-- Each output is made of the integers and the scales of its own row, as the kernel of one row makes them, and no integer of 16
or 32 bits overflows in either kernel. -/
theorem gemv8_repack {n : Nat} (hacts : ∀ b < n, IsAct (acts b)) :
    (∀ b < n, NoOverflowX8 (repackX8 (bytesX8 rows) b) (acts b) ∧
      ∀ r < 8, NoOverflow (block (bytesOf (rows r)) b) (acts b) ∧
        Attributes (repackX8 (bytesX8 rows) b) (acts b) (block (bytesOf (rows r)) b) r) ∧
    ∀ r < 8,
      gemv8Avx2 (repackX8 (bytesX8 rows)) acts n r = ∑ b ∈ range n, blockDotWith cvtphPs (block (bytesOf (rows r)) b) (acts b) ∧
      gemv8Scalar (repackX8 (bytesX8 rows)) acts r n =
        ∑ b ∈ range n, blockDotWith scalarHalf (block (bytesOf (rows r)) b) (acts b) := by
  refine ⟨fun b hb => ⟨noOverflowX8 b (hacts b hb), fun r hr => ⟨?_, attributes b (hacts b hb) hr⟩⟩, fun r hr => ⟨?_, ?_⟩⟩
  · exact noOverflow (block_lt (rows r) b) (hacts b hb)
  · exact gemv8Avx2_eq hacts hr
  · exact gemv8Scalar_eq hr hacts

end

/-- Eight different rows. -/
def sampleRows (r i : Nat) : UInt8 := UInt8.ofNat (37 * r + i)

theorem gemv8_repack_eight : Attributes (repackX8 (bytesX8 sampleRows) 0) rampAct (block (bytesOf (sampleRows 5)) 0) 5 :=
  (((@gemv8_repack sampleRows (fun _ => rampAct) 1 fun _ _ => isAct_ramp).1 0 (by decide)).2 5 (by decide)).2

end BitForge.Q4kX8
