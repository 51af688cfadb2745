/-
Q4_K rows: the decoder `gguf_dequant_q4_k`, and `dot_q4k_row_q8k`, which multiplies a row with quantized activations without
decoding it. Scales and activations are rational numbers.
-/
import BitForge.Kernel.HalfFloat
import BitForge.Kernel.Quantize

namespace BitForge.Q4k

open Finset BitForge.Lib BitForge.Lib.Simd BitForge.Q2Vnni BitForge.Quantize BitForge.HalfFloat

/-! ## Blocks of 144 bytes -/

/-- The bytes of the block `b`. -/
def block (row : Nat → Nat) (b : Nat) : Nat → Nat := fun t => row (144 * b + t)

/-- `d_bits` -/
def dBits (blk : Nat → Nat) : Nat := blk 0 + 256 * blk 1

/-- `dmin_bits` -/
def dminBits (blk : Nat → Nat) : Nat := blk 2 + 256 * blk 3

def sc12 (blk : Nat → Nat) : Nat → Nat := fun i => blk (4 + i)

def qs (blk : Nat → Nat) : Nat → Nat := fun i => blk (16 + i)

/-- The 6-bit scale `j`, as `q4k_decode_scales` and `q4k_decode_scales_raw` unpack it. -/
def rawSc (sc12 : Nat → Nat) (j : Nat) : Nat :=
  if j < 4 then sc12 j &&& 63
  else
    let k := j - 4
    (sc12 (k + 8) &&& 0x0F) ||| (sc12 k >>> 6) <<< 4

/-- The 6-bit minimum `j`. -/
def rawMn (sc12 : Nat → Nat) (j : Nat) : Nat :=
  if j < 4 then sc12 (j + 4) &&& 63
  else
    let k := j - 4
    (sc12 (k + 8) >>> 4) ||| (sc12 (k + 4) >>> 6) <<< 4

/-! ## `gguf_dequant_q4_k` -/

/-- The element `e` of a block. -/
def dequantBlock (blk : Nat → Nat) (e : Nat) : ℚ :=
  let d := fp16ToF32 (dBits blk)
  let dmin := fp16ToF32 (dminBits blk)
  let scales := fun j => (rawSc (sc12 blk) j : ℚ) * d
  let mins := fun j => (rawMn (sc12 blk) j : ℚ) * dmin
  let g := e / 64
  let is := g * 2
  let q := fun l => qs blk (g * 32 + l)
  let l := e % 64
  if l < 32 then scales is * (q l &&& 0xF : Nat) - mins is
  else scales (is + 1) * (q (l - 32) >>> 4 : Nat) - mins (is + 1)

/-- `gguf_dequant_q4_k`: the element `i` of whole blocks. -/
def ggufDequantQ4K (data : Nat → Nat) (i : Nat) : ℚ := dequantBlock (block data (i / 256)) (i % 256)

/-! ## `dot_q4k_row_q8k`, the scalar body -/

/-- A code of the activations of a block, and the sum of sixteen of them. -/
def actQ (act : Q8KActBlock ℚ) (i : Nat) : Int := act.qs.getD i 0

def bsum (act : Q8KActBlock ℚ) (j : Nat) : Int := act.bsums.getD j 0

/-- An `int32_t` sum after a number of terms. -/
def sum32 (term : Nat → Int) : Nat → Int
  | 0 => 0
  | n + 1 => wrap 32 (sum32 term n + term n)

/-- The activations of the lower and of the upper nibbles of a group. -/
def q8l (act : Q8KActBlock ℚ) (g l : Nat) : Int := actQ act (g * 64 + l)

def q8h (act : Q8KActBlock ℚ) (g l : Nat) : Int := actQ act (g * 64 + 32 + l)

/-- What is added to `sum_lo` and to `sum_hi`. -/
def loTerm (blk : Nat → Nat) (act : Q8KActBlock ℚ) (g l : Nat) : Int := ((qs blk (g * 32 + l) &&& 0x0F : Nat) : Int) * q8l act g l

def hiTerm (blk : Nat → Nat) (act : Q8KActBlock ℚ) (g l : Nat) : Int := ((qs blk (g * 32 + l) >>> 4 : Nat) : Int) * q8h act g l

/-- The products that the scale `i` is for. -/
def scaleTerm (blk : Nat → Nat) (act : Q8KActBlock ℚ) (i : Nat) : Nat → Int :=
  if i % 2 = 0 then loTerm blk act (i / 2) else hiTerm blk act (i / 2)

/-- What is added to `int_dot` for the scale `i`. -/
def dotTerm (blk : Nat → Nat) (act : Q8KActBlock ℚ) (i : Nat) : Int :=
  (rawSc (sc12 blk) i : Int) * sum32 (scaleTerm blk act i) 32

/-- `int_dot`, two terms for each group. -/
def intDot (blk : Nat → Nat) (act : Q8KActBlock ℚ) : Int := sum32 (dotTerm blk act) 8

/-- What is added to `int_min`. -/
def minTerm (blk : Nat → Nat) (act : Q8KActBlock ℚ) (j : Nat) : Int :=
  (rawMn (sc12 blk) j : Int) * (bsum act (2 * j) + bsum act (2 * j + 1))

/-- `int_min` -/
def intMin (blk : Nat → Nat) (act : Q8KActBlock ℚ) : Int := sum32 (minTerm blk act) 8

/-- `dot_q4k_row_q8k` without vector instructions. -/
def dotScalar (row : Nat → Nat) (acts : Nat → Q8KActBlock ℚ) : Nat → ℚ
  | 0 => 0
  | b + 1 =>
    let blk := block row b
    if (acts b).d = 0 then dotScalar row acts b
    else
      dotScalar row acts b + (acts b).d * (q4kF16ToF32 (dBits blk) * (intDot blk (acts b) : Int) -
        q4kF16ToF32 (dminBits blk) * (intMin blk (acts b) : Int))

/-! ## The AVX2 body -/

/-- The byte `t` of a word. -/
def byteOf (w t : Nat) : Nat := w / 256 ^ t % 256

/-- The word `k` of the packed scales. -/
def scWord (sc12 : Nat → Nat) (k : Nat) : Nat :=
  sc12 (4 * k) + 256 * sc12 (4 * k + 1) + 65536 * sc12 (4 * k + 2) + 16777216 * sc12 (4 * k + 3)

/-- `utmp`, after the decoding. -/
def utmp (sc12 : Nat → Nat) (k : Nat) : Nat :=
  let kmask1 := 0x3f3f3f3f
  let kmask2 := 0x0f0f0f0f
  let kmask3 := 0x03030303
  match k with
  | 0 => scWord sc12 0 &&& kmask1
  | 1 => (scWord sc12 2 &&& kmask2) ||| ((scWord sc12 0 >>> 6) &&& kmask3) <<< 4
  | 2 => scWord sc12 1 &&& kmask1
  | _ => ((scWord sc12 2 >>> 4) &&& kmask2) ||| ((scWord sc12 1 >>> 6) &&& kmask3) <<< 4

/-- `mins_and_scales`, sixteen lanes of 16 bits. -/
def minsAndScales (sc12 : Nat → Nat) (l : Nat) : Nat := byteOf (utmp sc12 (l / 4)) (l % 4)

/-- The bytes of lanes of 16 bits. -/
def laneBytes (lanes : Nat → Nat) (i : Nat) : Nat := byteOf (lanes (i / 2)) (i % 2)

/-- The table of `q4k_scale_shuffle`: 32 bytes for each scale. -/
def kShuf (t : Nat) : Nat := 2 * (t / 32) + t % 2

/-- The scale `i` in all lanes. -/
def scaleLanes (sc12 : Nat → Nat) (i : Nat) : Nat → Int :=
  let scales := laneBytes fun m => minsAndScales sc12 (m % 8)
  let shuffled := shuffleEpi8 scales fun t => kShuf (32 * i + t)
  fun m => wrap 16 (shuffled (2 * m) + 256 * shuffled (2 * m + 1))

/-- `q4l` and `q4h` -/
def q4l (blk : Nat → Nat) (j : Nat) : Nat → Nat := andSet1 (fun i => qs blk (j * 32 + i)) 0x0F

def q4h (blk : Nat → Nat) (j : Nat) : Nat → Nat := andSet1 (srliEpi16 (fun i => qs blk (j * 32 + i)) 4) 0x0F

/-- `p16l` and `p16h` -/
def p16l (blk : Nat → Nat) (act : Q8KActBlock ℚ) (j : Nat) : Nat → Int :=
  maddEpi16 (scaleLanes (sc12 blk) (2 * j)) (maddubsEpi16 (q4l blk j) (q8l act j))

def p16h (blk : Nat → Nat) (act : Q8KActBlock ℚ) (j : Nat) : Nat → Int :=
  maddEpi16 (scaleLanes (sc12 blk) (2 * j + 1)) (maddubsEpi16 (q4h blk j) (q8h act j))

/-- `sumi` after a number of groups. -/
def sumi (blk : Nat → Nat) (act : Q8KActBlock ℚ) (n l : Nat) : Int :=
  sum32 (fun j => wrap 32 (p16l blk act j l + p16h blk act j l)) n

/-- `q8s` -/
def q8s (act : Q8KActBlock ℚ) : Nat → Int := haddEpi16 (bsum act) fun i => bsum act (8 + i)

/-- `prod_min` -/
def prodMin (blk : Nat → Nat) (act : Q8KActBlock ℚ) : Nat → Int :=
  maddEpi16 (fun l => (minsAndScales (sc12 blk) (8 + l) : Int)) (q8s act)

/-- `acc` after a number of blocks. -/
def acc (row : Nat → Nat) (acts : Nat → Q8KActBlock ℚ) : Nat → Nat → ℚ
  | 0 => fun _ => 0
  | b + 1 => fun l =>
    if (acts b).d = 0 then acc row acts b l
    else (acts b).d * q4kF16ToF32 (dBits (block row b)) * (sumi (block row b) (acts b) 4 l : Int) + acc row acts b l

/-- `acc_m` after a number of blocks. -/
def accM (row : Nat → Nat) (acts : Nat → Q8KActBlock ℚ) : Nat → Nat → ℚ
  | 0 => fun _ => 0
  | b + 1 => fun l =>
    if (acts b).d = 0 then accM row acts b l
    else -(acts b).d * q4kF16ToF32 (dminBits (block row b)) * (prodMin (block row b) (acts b) l : Int) + accM row acts b l

/-- `dot_q4k_row_q8k` with AVX2. -/
def dotAvx2 (row : Nat → Nat) (acts : Nat → Q8KActBlock ℚ) (nBlocks : Nat) : ℚ :=
  let s := fun l => acc row acts nBlocks l + acc row acts nBlocks (4 + l)
  let s2 := fun l => s l + s (2 + l)
  let m2 := fun l => accM row acts nBlocks l + accM row acts nBlocks (2 + l)
  s2 0 + s2 1 + (m2 0 + m2 1)

/-! ## Scales -/

theorem rawSc_lt (sc12 : Nat → Nat) (hb : ∀ i, sc12 i < 256) (j : Nat) : rawSc sc12 j < 64 := by
  have hhigh := hb (j - 4)
  unfold rawSc
  split
  · exact Nat.and_lt_two_pow _ (show 63 < 2 ^ 6 by decide)
  · refine Nat.or_lt_two_pow (n := 6) ((Nat.and_lt_two_pow _ (show 0x0F < 2 ^ 4 by decide)).trans (by decide)) ?_
    rw [Nat.shiftRight_eq_div_pow, Nat.shiftLeft_eq]
    omega

theorem rawMn_lt (sc12 : Nat → Nat) (hb : ∀ i, sc12 i < 256) (j : Nat) : rawMn sc12 j < 64 := by
  have hlow := hb (j - 4 + 8)
  have hhigh := hb (j - 4 + 4)
  unfold rawMn
  split
  · exact Nat.and_lt_two_pow _ (show 63 < 2 ^ 6 by decide)
  · refine Nat.or_lt_two_pow (n := 6) ?_ ?_
    · rw [Nat.shiftRight_eq_div_pow]
      omega
    · rw [Nat.shiftRight_eq_div_pow, Nat.shiftLeft_eq]
      omega

theorem byteOf_and (w v t : Nat) : byteOf (w &&& v) t = byteOf w t &&& byteOf v t := by
  unfold byteOf
  rw [show 256 ^ t = 2 ^ (8 * t) by rw [pow_mul]; norm_num, show 256 = 2 ^ 8 by rfl, Nat.and_div_two_pow, Nat.and_mod_two_pow]

theorem byteOf_or (w v t : Nat) : byteOf (w ||| v) t = byteOf w t ||| byteOf v t := by
  unfold byteOf
  rw [show 256 ^ t = 2 ^ (8 * t) by rw [pow_mul]; norm_num, show 256 = 2 ^ 8 by rfl, Nat.or_div_two_pow, Nat.or_mod_two_pow]

theorem byteOf_scWord {sc12 : Nat → Nat} (hb : ∀ i, sc12 i < 256) (k : Nat) {t : Nat} (ht : t < 4) :
    byteOf (scWord sc12 k) t = sc12 (4 * k + t) := by
  have h0 := hb (4 * k)
  have h1 := hb (4 * k + 1)
  have h2 := hb (4 * k + 2)
  have h3 := hb (4 * k + 3)
  unfold byteOf scWord
  interval_cases t <;> norm_num <;> omega

/-- A shift of a word moves each byte, where the mask cuts off what comes from its neighbour. -/
theorem byteOf_shiftRight (w t : Nat) {s k : Nat} (hk : k + s ≤ 8) :
    byteOf (w >>> s) t % 2 ^ k = byteOf w t / 2 ^ s % 2 ^ k := by
  unfold byteOf
  have hcomm : w / 2 ^ s / 256 ^ t = w / 256 ^ t / 2 ^ s := Nat.div_right_comm _ _ _
  have hsplit : 256 = 2 ^ s * 2 ^ (8 - s) := by
    rw [← pow_add, Nat.add_sub_cancel' (by omega)]
    norm_num
  rw [Nat.shiftRight_eq_div_pow, hcomm]
  generalize w / 256 ^ t = v
  rw [Nat.mod_mod_of_dvd _ (show 2 ^ k ∣ 256 from pow_dvd_pow 2 (show k ≤ 8 by omega))]
  rw [hsplit, Nat.mod_mul_right_div_self, Nat.mod_mod_of_dvd _ (pow_dvd_pow 2 (show k ≤ 8 - s by omega))]

/-- A word of small bytes is shifted byte by byte. -/
theorem byteOf_shiftLeft {w : Nat} (hw : ∀ t < 4, byteOf w t < 16) {t : Nat} (ht : t < 4) :
    byteOf (w <<< 4) t = byteOf w t <<< 4 := by
  have h0 := hw 0 (by decide)
  have h1 := hw 1 (by decide)
  have h2 := hw 2 (by decide)
  have h3 := hw 3 (by decide)
  rw [Nat.shiftLeft_eq, Nat.shiftLeft_eq]
  unfold byteOf at *
  interval_cases t <;> norm_num at * <;> omega

section

variable {sc12 : Nat → Nat}

/-- The upper two bits of each byte of a word. -/
theorem byteOf_high (w : Nat) {t : Nat} (ht : t < 4) : byteOf ((w >>> 6) &&& 0x03030303) t = byteOf w t >>> 6 := by
  have hmask : byteOf 0x03030303 t = 2 ^ 2 - 1 := by interval_cases t <;> rfl
  rw [byteOf_and, hmask, Nat.and_two_pow_sub_one_eq_mod, byteOf_shiftRight w t (by decide), Nat.shiftRight_eq_div_pow]
  unfold byteOf
  omega

/-- The scales and the minima from the masked words. -/
theorem minsAndScales_eq (hb : ∀ i, sc12 i < 256) {l : Nat} (hl : l < 16) :
    minsAndScales sc12 l = if l < 8 then rawSc sc12 l else rawMn sc12 (l - 8) := by
  have hword := fun k => @byteOf_scWord sc12 hb k (l % 4) (Nat.mod_lt _ (by decide))
  have hsmall : ∀ k, ∀ t < 4, byteOf ((scWord sc12 k >>> 6) &&& 0x03030303) t < 16 := by
    intro k t ht
    have hbyte := hb (4 * k + t)
    rw [byteOf_high _ ht, byteOf_scWord hb k ht, Nat.shiftRight_eq_div_pow]
    omega
  have ht : l % 4 < 4 := Nat.mod_lt _ (by decide)
  have hk1 : byteOf 0x3f3f3f3f (l % 4) = 63 := by
    generalize l % 4 = t at ht
    interval_cases t <;> rfl
  have hk2 : byteOf 0x0f0f0f0f (l % 4) = 2 ^ 4 - 1 := by
    generalize l % 4 = t at ht
    interval_cases t <;> rfl
  unfold minsAndScales
  rcases (show l / 4 = 0 ∨ l / 4 = 1 ∨ l / 4 = 2 ∨ l / 4 = 3 by omega) with hq | hq | hq | hq <;> rw [hq]
  · rw [if_pos (by omega)]
    unfold rawSc
    show byteOf (scWord sc12 0 &&& 0x3f3f3f3f) (l % 4) = _
    rw [if_pos (by omega), byteOf_and, hk1, hword, show 4 * 0 + l % 4 = l by omega]
  · rw [if_pos (by omega)]
    unfold rawSc
    show byteOf ((scWord sc12 2 &&& 0x0f0f0f0f) ||| ((scWord sc12 0 >>> 6) &&& 0x03030303) <<< 4) (l % 4) = _
    rw [if_neg (by omega), byteOf_or, byteOf_and, hk2, byteOf_shiftLeft (hsmall 0) ht, byteOf_high _ ht, hword, hword,
      show 4 * 2 + l % 4 = l - 4 + 8 by omega, show 4 * 0 + l % 4 = l - 4 by omega]
    rfl
  · rw [if_neg (by omega)]
    unfold rawMn
    show byteOf (scWord sc12 1 &&& 0x3f3f3f3f) (l % 4) = _
    rw [if_pos (by omega), byteOf_and, hk1, hword, show 4 * 1 + l % 4 = l - 8 + 4 by omega]
  · have hnibble : sc12 (l - 8 - 4 + 8) / 2 ^ 4 % 2 ^ 4 = sc12 (l - 8 - 4 + 8) >>> 4 := by
      have hbyte := hb (l - 8 - 4 + 8)
      rw [Nat.shiftRight_eq_div_pow]
      omega
    rw [if_neg (by omega)]
    unfold rawMn
    show byteOf (((scWord sc12 2 >>> 4) &&& 0x0f0f0f0f) ||| ((scWord sc12 1 >>> 6) &&& 0x03030303) <<< 4) (l % 4) = _
    rw [if_neg (by omega), byteOf_or, byteOf_and, hk2, Nat.and_two_pow_sub_one_eq_mod, byteOf_shiftRight _ _ (by decide),
      byteOf_shiftLeft (hsmall 1) ht, byteOf_high _ ht, hword, hword, show 4 * 2 + l % 4 = l - 8 - 4 + 8 by omega,
      show 4 * 1 + l % 4 = l - 8 - 4 + 4 by omega, hnibble]

/-- All lanes hold the scale. -/
theorem scaleLanes_eq (hb : ∀ i, sc12 i < 256) {i m : Nat} (hi : i < 8) (hm : m < 16) : scaleLanes sc12 i m = rawSc sc12 i := by
  have hlt := rawSc_lt sc12 hb i
  have hbyte : ∀ b < 2, shuffleEpi8 (laneBytes fun m => minsAndScales sc12 (m % 8)) (fun t => kShuf (32 * i + t)) (2 * m + b) =
      byteOf (rawSc sc12 i) b := by
    intro b hb2
    have hctrl : kShuf (32 * i + (2 * m + b)) = 2 * i + b := by
      unfold kShuf
      omega
    have hlane : (16 * ((2 * m + b) / 16) + (2 * i + b) % 16) / 2 % 8 = i := by omega
    have hpar : (16 * ((2 * m + b) / 16) + (2 * i + b) % 16) % 2 = b := by omega
    rw [@shuffleEpi8_eq _ (fun t => kShuf (32 * i + t)) _ _ hctrl (by omega)]
    unfold laneBytes
    dsimp only
    rw [hlane, hpar, minsAndScales_eq hb (by omega), if_pos hi]
  have h0 := hbyte 0 (by decide)
  have h1 := hbyte 1 (by decide)
  rw [Nat.add_zero] at h0
  unfold scaleLanes
  rw [h0, h1]
  unfold byteOf
  rw [wrap_eq (w := 15) (by omega) (by omega)]
  omega

end

/-! ## Products and sums -/

theorem abs_mul_le_mul {x y : Int} {A B : Nat} (hx : |x| ≤ A) (hy : |y| ≤ B) : |x * y| ≤ (A * B : Nat) := by
  rw [abs_mul, Nat.cast_mul]
  exact mul_le_mul hx hy (abs_nonneg y) (Int.natCast_nonneg A)

theorem abs_add_le_two {x y : Int} {B : Nat} (hx : |x| ≤ B) (hy : |y| ≤ B) : |x + y| ≤ (2 * B : Nat) := by
  obtain ⟨hlo0, hhi0⟩ := abs_le.1 hx
  obtain ⟨hlo1, hhi1⟩ := abs_le.1 hy
  exact abs_le.2 ⟨by push_cast; omega, by push_cast; omega⟩

/-- A product with a scale of six bits. -/
theorem abs_scale_mul_le {scale : Nat} (hscale : scale < 64) {y : Int} {B : Nat} (hy : |y| ≤ B) : |(scale : Int) * y| ≤ (63 * B : Nat) :=
  abs_mul_le_mul (abs_le.2 ⟨by omega, by omega⟩) hy

theorem abs_sum_le_mul {term : Nat → Int} {n B : Nat} (hterm : ∀ t < n, |term t| ≤ B) : |∑ t ∈ range n, term t| ≤ (n * B : Nat) := by
  have hcard := sum_le_card_nsmul (range n) (fun t => |term t|) B fun t ht => hterm t (mem_range.1 ht)
  rw [card_range, nsmul_eq_mul] at hcard
  rw [Nat.cast_mul]
  exact (abs_sum_le_sum_abs term (range n)).trans hcard

/-- A sum of 32 bits all of whose intermediate values are exact. -/
theorem sum32_eq {term : Nat → Int} {B : Nat} : ∀ {n : Nat}, (∀ t < n, |term t| ≤ B) → n * B < 2 ^ 31 →
    sum32 term n = ∑ t ∈ range n, term t
  | 0, _, _ => rfl
  | n + 1, hterm, hfit => by
    have hsum := fits_of_abs (w := 32) (abs_sum_le_mul hterm) hfit
    unfold sum32
    rw [sum32_eq (fun t ht => hterm t (by omega)) (by rw [Nat.succ_mul] at hfit; omega), ← sum_range_succ]
    exact wrap_of_fits hsum

/-! ## What fits -/

/-- What the quantization establishes: codes of one byte, and the sums of sixteen of them. -/
structure IsAct (act : Q8KActBlock ℚ) : Prop where
  codes : ∀ i < 256, -128 ≤ actQ act i ∧ actQ act i ≤ 127
  bsums : ∀ j < 16, bsum act j = ∑ k ∈ range 16, actQ act (16 * j + k)

/-- The terms of a sum and the sum after each of them. -/
def Sum32Fits (term : Nat → Int) (n : Nat) : Prop := ∀ t < n, Fits 32 (term t) ∧ Fits 32 (sum32 term t + term t)

/-- All 16- and 32-bit values that the two bodies make of a block. -/
structure NoOverflow (blk : Nat → Nat) (act : Q8KActBlock ℚ) : Prop where
  pairs : ∀ j < 4, MaddubsFits (q4l blk j) (q8l act j) 16 ∧ MaddubsFits (q4h blk j) (q8h act j) 16
  scaled : ∀ j < 4, MaddFits (scaleLanes (sc12 blk) (2 * j)) (maddubsEpi16 (q4l blk j) (q8l act j)) 8 ∧
    MaddFits (scaleLanes (sc12 blk) (2 * j + 1)) (maddubsEpi16 (q4h blk j) (q8h act j)) 8
  halves : ∀ j < 4, ∀ l < 8, Fits 32 (p16l blk act j l + p16h blk act j l)
  lanes : ∀ l < 8, Sum32Fits (fun j => wrap 32 (p16l blk act j l + p16h blk act j l)) 4
  bsums : HaddFits (bsum act) 8
  mins : MaddFits (fun l => (minsAndScales (sc12 blk) (8 + l) : Int)) (q8s act) 4
  products : ∀ i < 8, Sum32Fits (scaleTerm blk act i) 32
  dots : Sum32Fits (dotTerm blk act) 8
  minSums : Sum32Fits (minTerm blk act) 8

theorem sum32Fits_of_abs {term : Nat → Int} {n B : Nat} (hterm : ∀ t < n, |term t| ≤ B) (hpos : 0 < n) (hfit : n * B < 2 ^ 31) :
    Sum32Fits term n := by
  intro t ht
  have hone : B ≤ n * B := Nat.le_mul_of_pos_left B hpos
  have hsucc : (t + 1) * B ≤ n * B := Nat.mul_le_mul_right B ht
  refine ⟨fits_of_abs (hterm t ht) (by omega), ?_⟩
  rw [sum32_eq (B := B) (fun u hu => hterm u (by omega)) (by rw [Nat.succ_mul] at hsucc; omega), ← sum_range_succ]
  exact fits_of_abs (abs_sum_le_mul fun u hu => hterm u (by omega)) (hsucc.trans_lt hfit)

/-! ## Nibbles times codes -/

section

variable {u : Nat → Nat} {s : Nat → Int}

theorem nibbleProduct_le {x : Nat} {y : Int} (hx : x < 16) (hy : -128 ≤ y ∧ y ≤ 127) : |(x : Int) * y| ≤ (15 * 128 : Nat) :=
  abs_mul_le_mul (abs_le.2 ⟨by omega, by omega⟩) (abs_le.2 ⟨by push_cast; omega, by push_cast; omega⟩)

theorem maddubs_fits (hu : ∀ i < 32, u i < 16) (hs : ∀ i < 32, -128 ≤ s i ∧ s i ≤ 127) : MaddubsFits u s 16 := by
  intro m hm
  have hfirst := nibbleProduct_le (hu (2 * m) (by omega)) (hs (2 * m) (by omega))
  have hsecond := nibbleProduct_le (hu (2 * m + 1) (by omega)) (hs (2 * m + 1) (by omega))
  exact fits_of_abs (abs_add_le_two hfirst hsecond) (by decide)

/-- Four products of a lane, with their scale. -/
theorem scaled_le {scale : Nat} (hscale : scale < 64) (hu : ∀ i < 32, u i < 16) (hs : ∀ i < 32, -128 ≤ s i ∧ s i ≤ 127) {l : Nat}
    (hl : l < 8) : |(scale : Int) * ∑ t ∈ range 4, (u (4 * l + t) : Int) * s (4 * l + t)| ≤ (63 * (4 * (15 * 128)) : Nat) :=
  abs_scale_mul_le hscale
    (abs_sum_le_mul fun t ht => nibbleProduct_le (hu (4 * l + t) (by omega)) (hs (4 * l + t) (by omega)))

/-- The products of a lane, in pairs and then in fours with the scale. -/
theorem madd_maddubs {c : Nat → Int} {scale : Nat} (hc : ∀ m < 16, c m = scale) (hu : ∀ i < 32, u i < 16)
    (hs : ∀ i < 32, -128 ≤ s i ∧ s i ≤ 127) {l : Nat} (hl : l < 8) :
    c (2 * l) * maddubsEpi16 u s (2 * l) + c (2 * l + 1) * maddubsEpi16 u s (2 * l + 1) =
      scale * ∑ t ∈ range 4, (u (4 * l + t) : Int) * s (4 * l + t) := by
  have hfits := maddubs_fits hu hs
  have hidx : 2 * (2 * l) = 4 * l := by ring
  have hidx' : 2 * (2 * l + 1) = 4 * l + 2 := by ring
  rw [hc _ (by omega), hc _ (by omega), maddubsEpi16_eq hfits (by omega), maddubsEpi16_eq hfits (by omega), hidx, hidx']
  simp only [sum_range_succ, sum_range_zero]
  ring_nf

/-- A register of such products. -/
theorem madd_lanes {c : Nat → Int} {scale : Nat} (hscale : scale < 64) (hc : ∀ m < 16, c m = scale) (hu : ∀ i < 32, u i < 16)
    (hs : ∀ i < 32, -128 ≤ s i ∧ s i ≤ 127) :
    MaddFits c (maddubsEpi16 u s) 8 ∧
      ∀ l < 8, maddEpi16 c (maddubsEpi16 u s) l = scale * ∑ t ∈ range 4, (u (4 * l + t) : Int) * s (4 * l + t) := by
  have hfits : MaddFits c (maddubsEpi16 u s) 8 := by
    intro l hl
    rw [madd_maddubs hc hu hs hl]
    exact fits_of_abs (scaled_le hscale hu hs hl) (by decide)
  exact ⟨hfits, fun l hl => (maddEpi16_eq hfits hl).trans (madd_maddubs hc hu hs hl)⟩

end

/-! ## A block -/

section

variable {blk : Nat → Nat} {act : Q8KActBlock ℚ}

theorem q4l_lt (i j : Nat) : q4l blk j i < 16 := Nat.and_lt_two_pow _ (show 0x0F < 2 ^ 4 by decide)

theorem q4h_eq (hblk : ∀ i, blk i < 256) (i j : Nat) : q4h blk j i = qs blk (j * 32 + i) >>> 4 := by
  rw [Nat.shiftRight_eq_div_pow]
  exact srliEpi16_nibble (fun _ => hblk _) i

theorem q4h_lt (hblk : ∀ i, blk i < 256) (i j : Nat) : q4h blk j i < 16 := by
  have hbyte : qs blk (j * 32 + i) < 256 := hblk _
  rw [q4h_eq hblk, Nat.shiftRight_eq_div_pow]
  omega

theorem hiTerm_eq (hblk : ∀ i, blk i < 256) (j i : Nat) : hiTerm blk act j i = (q4h blk j i : Int) * q8h act j i := by
  unfold hiTerm
  rw [q4h_eq hblk]

theorem q8l_bounds (hact : IsAct act) {j : Nat} (hj : j < 4) : ∀ i < 32, -128 ≤ q8l act j i ∧ q8l act j i ≤ 127 :=
  fun i hi => hact.codes _ (by omega)

theorem q8h_bounds (hact : IsAct act) {j : Nat} (hj : j < 4) : ∀ i < 32, -128 ≤ q8h act j i ∧ q8h act j i ≤ 127 :=
  fun i hi => hact.codes _ (by omega)

/-- The scalar products. -/
theorem scaleTerm_le (hblk : ∀ i, blk i < 256) (hact : IsAct act) {i : Nat} (hi : i < 8) :
    ∀ l < 32, |scaleTerm blk act i l| ≤ (15 * 128 : Nat) := by
  intro l hl
  unfold scaleTerm
  split
  · exact nibbleProduct_le (q4l_lt l (i / 2)) (q8l_bounds hact (by omega) l hl)
  · rw [hiTerm_eq hblk]
    exact nibbleProduct_le (q4h_lt hblk l (i / 2)) (q8h_bounds hact (by omega) l hl)

theorem dotTerm_eq (hblk : ∀ i, blk i < 256) (hact : IsAct act) {i : Nat} (hi : i < 8) :
    dotTerm blk act i = rawSc (sc12 blk) i * ∑ l ∈ range 32, scaleTerm blk act i l := by
  unfold dotTerm
  rw [sum32_eq (scaleTerm_le hblk hact hi) (by decide)]

theorem dotTerm_le (hblk : ∀ i, blk i < 256) (hact : IsAct act) :
    ∀ i < 8, |dotTerm blk act i| ≤ (63 * (32 * (15 * 128)) : Nat) := by
  intro i hi
  rw [dotTerm_eq hblk hact hi]
  exact abs_scale_mul_le (rawSc_lt (sc12 blk) (fun _ => hblk _) i) (abs_sum_le_mul (scaleTerm_le hblk hact hi))

/-- `int_dot` in exact numbers. -/
theorem intDot_eq (hblk : ∀ i, blk i < 256) (hact : IsAct act) :
    intDot blk act = ∑ i ∈ range 8, (rawSc (sc12 blk) i : Int) * ∑ l ∈ range 32, scaleTerm blk act i l := by
  unfold intDot
  rw [sum32_eq (dotTerm_le hblk hact) (by decide)]
  exact sum_congr rfl fun i hi => dotTerm_eq hblk hact (mem_range.1 hi)

theorem bsum_le (hact : IsAct act) {j : Nat} (hj : j < 16) : |bsum act j| ≤ (16 * 128 : Nat) := by
  rw [hact.bsums j hj]
  refine abs_sum_le_mul fun k hk => ?_
  obtain ⟨hlo, hhi⟩ := hact.codes (16 * j + k) (by omega)
  exact abs_le.2 ⟨by push_cast; omega, by push_cast; omega⟩

theorem bsumPair_le (hact : IsAct act) {j : Nat} (hj : j < 8) : |bsum act (2 * j) + bsum act (2 * j + 1)| ≤ (2 * (16 * 128) : Nat) :=
  abs_add_le_two (bsum_le hact (by omega)) (bsum_le hact (by omega))

theorem minTerm_le (hblk : ∀ i, blk i < 256) (hact : IsAct act) :
    ∀ j < 8, |minTerm blk act j| ≤ (63 * (2 * (16 * 128)) : Nat) := by
  intro j hj
  exact abs_scale_mul_le (rawMn_lt (sc12 blk) (fun _ => hblk _) j) (bsumPair_le hact hj)

/-- The minima of a group. -/
theorem minPair_le (hblk : ∀ i, blk i < 256) (hact : IsAct act) {j : Nat} (hj : j < 4) :
    |minTerm blk act (2 * j) + minTerm blk act (2 * j + 1)| ≤ (2 * (63 * (2 * (16 * 128))) : Nat) :=
  abs_add_le_two (minTerm_le hblk hact _ (by omega)) (minTerm_le hblk hact _ (by omega))

/-- `int_min` in exact numbers. -/
theorem intMin_eq (hblk : ∀ i, blk i < 256) (hact : IsAct act) : intMin blk act = ∑ j ∈ range 8, minTerm blk act j :=
  sum32_eq (minTerm_le hblk hact) (by decide)

/-! ## The lanes of the vector body -/

theorem scaleTerm_even (j : Nat) : scaleTerm blk act (2 * j) = loTerm blk act j := by
  unfold scaleTerm
  rw [if_pos (by omega), show 2 * j / 2 = j by omega]

theorem scaleTerm_odd (j : Nat) : scaleTerm blk act (2 * j + 1) = hiTerm blk act j := by
  unfold scaleTerm
  rw [if_neg (by omega), show (2 * j + 1) / 2 = j by omega]

theorem p16l_eq (hblk : ∀ i, blk i < 256) (hact : IsAct act) {j : Nat} (hj : j < 4) :
    MaddFits (scaleLanes (sc12 blk) (2 * j)) (maddubsEpi16 (q4l blk j) (q8l act j)) 8 ∧
      ∀ l < 8, p16l blk act j l = rawSc (sc12 blk) (2 * j) * ∑ t ∈ range 4, scaleTerm blk act (2 * j) (4 * l + t) := by
  rw [scaleTerm_even]
  exact madd_lanes (rawSc_lt _ (fun _ => hblk _) _) (fun m hm => scaleLanes_eq (fun _ => hblk _) (by omega) hm)
    (fun i _ => q4l_lt i j) (q8l_bounds hact hj)

theorem p16h_eq (hblk : ∀ i, blk i < 256) (hact : IsAct act) {j : Nat} (hj : j < 4) :
    MaddFits (scaleLanes (sc12 blk) (2 * j + 1)) (maddubsEpi16 (q4h blk j) (q8h act j)) 8 ∧
      ∀ l < 8, p16h blk act j l = rawSc (sc12 blk) (2 * j + 1) * ∑ t ∈ range 4, scaleTerm blk act (2 * j + 1) (4 * l + t) := by
  rw [scaleTerm_odd]
  simp only [hiTerm_eq hblk]
  exact madd_lanes (rawSc_lt _ (fun _ => hblk _) _) (fun m hm => scaleLanes_eq (fun _ => hblk _) (by omega) hm)
    (fun i _ => q4h_lt hblk i j) (q8h_bounds hact hj)

/-- Four products of a lane for the scale `i`, with the scale. -/
theorem laneTerm_le (hblk : ∀ i, blk i < 256) (hact : IsAct act) {i l : Nat} (hi : i < 8) (hl : l < 8) :
    |(rawSc (sc12 blk) i : Int) * ∑ t ∈ range 4, scaleTerm blk act i (4 * l + t)| ≤ (63 * (4 * (15 * 128)) : Nat) :=
  abs_scale_mul_le (rawSc_lt (sc12 blk) (fun _ => hblk _) i) (abs_sum_le_mul fun t ht => scaleTerm_le hblk hact hi _ (by omega))

/-- What a group adds to a lane of `sumi`. -/
theorem halves_le (hblk : ∀ i, blk i < 256) (hact : IsAct act) {l : Nat} (hl : l < 8) :
    ∀ j < 4, |p16l blk act j l + p16h blk act j l| ≤ (2 * (63 * (4 * (15 * 128))) : Nat) := by
  intro j hj
  rw [(p16l_eq hblk hact hj).2 l hl, (p16h_eq hblk hact hj).2 l hl]
  exact abs_add_le_two (laneTerm_le hblk hact (by omega) hl) (laneTerm_le hblk hact (by omega) hl)

theorem halves_wrap (hblk : ∀ i, blk i < 256) (hact : IsAct act) {j l : Nat} (hj : j < 4) (hl : l < 8) :
    wrap 32 (p16l blk act j l + p16h blk act j l) = p16l blk act j l + p16h blk act j l :=
  wrap_of_fits (fits_of_abs (halves_le hblk hact hl j hj) (by decide))

theorem halvesTerm_le (hblk : ∀ i, blk i < 256) (hact : IsAct act) {l : Nat} (hl : l < 8) :
    ∀ j < 4, |wrap 32 (p16l blk act j l + p16h blk act j l)| ≤ (2 * (63 * (4 * (15 * 128))) : Nat) := by
  intro j hj
  rw [halves_wrap hblk hact hj hl]
  exact halves_le hblk hact hl j hj

/-- The lanes of `sumi` together are `int_dot`. -/
theorem sum_sumi (hblk : ∀ i, blk i < 256) (hact : IsAct act) : ∑ l ∈ range 8, sumi blk act 4 l = intDot blk act := by
  let laneTerm := fun l i => (rawSc (sc12 blk) i : Int) * ∑ t ∈ range 4, scaleTerm blk act i (4 * l + t)
  have hlane : ∀ l ∈ range 8, sumi blk act 4 l = ∑ i ∈ range 8, laneTerm l i := by
    intro l hl
    have hl8 := mem_range.1 hl
    unfold sumi
    rw [sum32_eq (halvesTerm_le hblk hact hl8) (by decide), ← sum_groups (laneTerm l) 2 4]
    refine sum_congr rfl fun j hj => ?_
    have hj4 := mem_range.1 hj
    rw [halves_wrap hblk hact hj4 hl8, (p16l_eq hblk hact hj4).2 l hl8, (p16h_eq hblk hact hj4).2 l hl8]
    exact (sum_range_two fun t => laneTerm l (2 * j + t)).symm
  rw [intDot_eq hblk hact, sum_congr rfl hlane, sum_comm]
  refine sum_congr rfl fun i _ => ?_
  rw [← mul_sum, sum_groups (scaleTerm blk act i) 4 8]

/-- `q8s` has the sums of pairs. -/
theorem hadd_fits (hact : IsAct act) : HaddFits (bsum act) 8 := fun _ hj => fits_of_abs (bsumPair_le hact hj) (by decide)

theorem q8s_eq (hact : IsAct act) {j : Nat} (hj : j < 8) : q8s act j = bsum act (2 * j) + bsum act (2 * j + 1) := by
  have hwrap := wrap_of_fits (hadd_fits hact j hj)
  unfold q8s haddEpi16
  dsimp only
  split
  · exact hwrap
  · rw [show 8 + 2 * (j - 4) = 2 * j by omega, show 8 + (2 * (j - 4) + 1) = 2 * j + 1 by omega]
    exact hwrap

theorem prodMin_eq (hblk : ∀ i, blk i < 256) (hact : IsAct act) {l : Nat} (hl : l < 4) :
    Fits 32 (minTerm blk act (2 * l) + minTerm blk act (2 * l + 1)) ∧
      (minsAndScales (sc12 blk) (8 + 2 * l) : Int) * q8s act (2 * l) +
        (minsAndScales (sc12 blk) (8 + (2 * l + 1)) : Int) * q8s act (2 * l + 1) =
      minTerm blk act (2 * l) + minTerm blk act (2 * l + 1) := by
  have hsc : ∀ i, sc12 blk i < 256 := fun _ => hblk _
  have hmin : ∀ j < 8, minsAndScales (sc12 blk) (8 + j) = rawMn (sc12 blk) j := by
    intro j hj
    rw [minsAndScales_eq hsc (by omega), if_neg (by omega), Nat.add_sub_cancel_left]
  refine ⟨fits_of_abs (minPair_le hblk hact hl) (by decide), ?_⟩
  rw [hmin _ (by omega), hmin _ (by omega), q8s_eq hact (by omega), q8s_eq hact (by omega)]
  rfl

theorem mins_fit (hblk : ∀ i, blk i < 256) (hact : IsAct act) :
    MaddFits (fun l => (minsAndScales (sc12 blk) (8 + l) : Int)) (q8s act) 4 := by
  intro l hl
  obtain ⟨hfits, heq⟩ := prodMin_eq hblk hact hl
  dsimp only
  rw [heq]
  exact hfits

/-- The lanes of `prod_min` together are `int_min`. -/
theorem sum_prodMin (hblk : ∀ i, blk i < 256) (hact : IsAct act) : ∑ l ∈ range 4, prodMin blk act l = intMin blk act := by
  have hlane : ∀ l ∈ range 4, prodMin blk act l = ∑ t ∈ range 2, minTerm blk act (2 * l + t) := by
    intro l hl
    have heq := (prodMin_eq hblk hact (mem_range.1 hl)).2
    unfold prodMin
    rw [maddEpi16_eq (mins_fit hblk hact) (mem_range.1 hl), sum_range_two]
    exact heq
  rw [intMin_eq hblk hact, sum_congr rfl hlane, sum_groups (minTerm blk act) 2 4]

theorem noOverflow (hblk : ∀ i, blk i < 256) (hact : IsAct act) : NoOverflow blk act where
  pairs j hj := ⟨maddubs_fits (fun i _ => q4l_lt i j) (q8l_bounds hact hj),
    maddubs_fits (fun i _ => q4h_lt hblk i j) (q8h_bounds hact hj)⟩
  scaled _ hj := ⟨(p16l_eq hblk hact hj).1, (p16h_eq hblk hact hj).1⟩
  halves j hj l hl := fits_of_abs (halves_le hblk hact hl j hj) (by decide)
  lanes _ hl := sum32Fits_of_abs (halvesTerm_le hblk hact hl) (by decide) (by decide)
  bsums := hadd_fits hact
  mins := mins_fit hblk hact
  products _ hi := sum32Fits_of_abs (scaleTerm_le hblk hact hi) (by decide) (by decide)
  dots := sum32Fits_of_abs (dotTerm_le hblk hact) (by decide) (by decide)
  minSums := sum32Fits_of_abs (minTerm_le hblk hact) (by decide) (by decide)

/-! ## The decoded block -/

/-- The minima times the sums of their activations, by groups. -/
theorem intMin_groups (hblk : ∀ i, blk i < 256) (hact : IsAct act) :
    intMin blk act = ∑ i ∈ range 8, (rawMn (sc12 blk) i : Int) * ∑ l ∈ range 32, actQ act (32 * i + l) := by
  rw [intMin_eq hblk hact]
  refine sum_congr rfl fun i hi => ?_
  have hi8 := mem_range.1 hi
  have hpair : ∑ l ∈ range 32, actQ act (32 * i + l) = bsum act (2 * i) + bsum act (2 * i + 1) := by
    rw [hact.bsums _ (by omega), hact.bsums _ (by omega), sum_range_add (fun l => actQ act (32 * i + l)) 16 16]
    refine congrArg₂ _ (sum_congr rfl fun k _ => ?_) (sum_congr rfl fun k _ => ?_)
    · rw [show 32 * i + k = 16 * (2 * i) + k by ring]
    · rw [show 32 * i + (16 + k) = 16 * (2 * i + 1) + k by ring]
  unfold minTerm
  rw [hpair]

/-- The element of the scale `i`. -/
theorem dequantBlock_eq (blk : Nat → Nat) (act : Q8KActBlock ℚ) {i l : Nat} (hl : l < 32) :
    dequantBlock blk (32 * i + l) * actQ act (32 * i + l) =
      fp16ToF32 (dBits blk) * ((rawSc (sc12 blk) i : ℚ) * (scaleTerm blk act i l : ℚ)) -
        fp16ToF32 (dminBits blk) * ((rawMn (sc12 blk) i : ℚ) * (actQ act (32 * i + l) : ℚ)) := by
  unfold dequantBlock
  dsimp only
  rcases Nat.even_or_odd' i with ⟨j, rfl | rfl⟩
  · rw [scaleTerm_even, if_pos (show (32 * (2 * j) + l) % 64 < 32 by omega), show (32 * (2 * j) + l) / 64 * 2 = 2 * j by omega,
      show (32 * (2 * j) + l) / 64 = j by omega, show (32 * (2 * j) + l) % 64 = l by omega]
    unfold loTerm q8l
    rw [show j * 64 + l = 32 * (2 * j) + l by ring]
    push_cast
    ring
  · rw [scaleTerm_odd, if_neg (show ¬(32 * (2 * j + 1) + l) % 64 < 32 by omega),
      show (32 * (2 * j + 1) + l) / 64 * 2 = 2 * j by omega, show (32 * (2 * j + 1) + l) / 64 = j by omega,
      show (32 * (2 * j + 1) + l) % 64 - 32 = l by omega]
    unfold hiTerm q8h
    rw [show j * 64 + 32 + l = 32 * (2 * j + 1) + l by ring]
    generalize qs blk (j * 32 + l) >>> 4 = q
    push_cast
    ring

/-- A block, decoded and multiplied. -/
theorem sum_dequantBlock (hblk : ∀ i, blk i < 256) (hact : IsAct act) :
    ∑ e ∈ range 256, dequantBlock blk e * actQ act e =
      fp16ToF32 (dBits blk) * (intDot blk act : Int) - fp16ToF32 (dminBits blk) * (intMin blk act : Int) := by
  have hscale : ∀ i ∈ range 8, ∑ l ∈ range 32, dequantBlock blk (32 * i + l) * actQ act (32 * i + l) =
      fp16ToF32 (dBits blk) * (((rawSc (sc12 blk) i : Int) * ∑ l ∈ range 32, scaleTerm blk act i l : Int) : ℚ) -
        fp16ToF32 (dminBits blk) * (((rawMn (sc12 blk) i : Int) * ∑ l ∈ range 32, actQ act (32 * i + l) : Int) : ℚ) := by
    intro i _
    rw [sum_congr rfl fun l hl => dequantBlock_eq blk act (mem_range.1 hl), sum_sub_distrib, ← mul_sum, ← mul_sum, ← mul_sum,
      ← mul_sum]
    push_cast
    rfl
  rw [← sum_groups (fun e => dequantBlock blk e * (actQ act e : ℚ)) 32 8, sum_congr rfl hscale, sum_sub_distrib, ← mul_sum,
    ← mul_sum, intDot_eq hblk hact, intMin_groups hblk hact]
  push_cast
  rfl

end

/-! ## A row -/

section

variable {row : Nat → UInt8} {acts : Nat → Q8KActBlock ℚ}

/-- The bytes of a row. -/
def bytesOf (row : Nat → UInt8) : Nat → Nat := fun i => (row i).toNat

theorem block_lt (row : Nat → UInt8) (b i : Nat) : block (bytesOf row) b i < 256 := UInt8.toNat_lt _

/-- What a block adds to the dot product. -/
def blockDot (row : Nat → Nat) (acts : Nat → Q8KActBlock ℚ) (b : Nat) : ℚ :=
  (acts b).d * (q4kF16ToF32 (dBits (block row b)) * (intDot (block row b) (acts b) : Int) -
    q4kF16ToF32 (dminBits (block row b)) * (intMin (block row b) (acts b) : Int))

theorem dotScalar_eq (row : Nat → Nat) (acts : Nat → Q8KActBlock ℚ) : ∀ n : Nat,
    dotScalar row acts n = ∑ b ∈ range n, blockDot row acts b
  | 0 => rfl
  | n + 1 => by
    unfold dotScalar
    rw [sum_range_succ, ← dotScalar_eq row acts n]
    dsimp only
    split
    · next hzero =>
      unfold blockDot
      rw [hzero, zero_mul, add_zero]
    · rfl

theorem acc_eq (row : Nat → Nat) (acts : Nat → Q8KActBlock ℚ) (l : Nat) : ∀ n : Nat,
    acc row acts n l = ∑ b ∈ range n, (acts b).d * q4kF16ToF32 (dBits (block row b)) * (sumi (block row b) (acts b) 4 l : Int)
  | 0 => rfl
  | n + 1 => by
    unfold acc
    rw [sum_range_succ, ← acc_eq row acts l n]
    split
    · next hzero => rw [hzero, zero_mul, zero_mul, add_zero]
    · exact add_comm _ _

theorem accM_eq (row : Nat → Nat) (acts : Nat → Q8KActBlock ℚ) (l : Nat) : ∀ n : Nat,
    accM row acts n l = ∑ b ∈ range n, -(acts b).d * q4kF16ToF32 (dminBits (block row b)) * (prodMin (block row b) (acts b) l : Int)
  | 0 => rfl
  | n + 1 => by
    unfold accM
    rw [sum_range_succ, ← accM_eq row acts l n]
    split
    · next hzero => rw [hzero, neg_zero, zero_mul, zero_mul, add_zero]
    · exact add_comm _ _

/-- The vector body and the scalar body. -/
theorem dotAvx2_eq {n : Nat} (hacts : ∀ b < n, IsAct (acts b)) :
    dotAvx2 (bytesOf row) acts n = ∑ b ∈ range n, blockDot (bytesOf row) acts b := by
  have hsums : dotAvx2 (bytesOf row) acts n = ∑ l ∈ range 8, acc (bytesOf row) acts n l + ∑ l ∈ range 4, accM (bytesOf row) acts n l := by
    unfold dotAvx2
    simp only [sum_range_succ, sum_range_zero]
    ring
  rw [hsums, sum_congr rfl fun l _ => acc_eq (bytesOf row) acts l n, sum_congr rfl fun l _ => accM_eq (bytesOf row) acts l n,
    sum_comm, sum_comm (s := range 4), ← sum_add_distrib]
  refine sum_congr rfl fun b hb => ?_
  have hact := hacts b (mem_range.1 hb)
  have hblk := block_lt row b
  unfold blockDot
  rw [← mul_sum, ← mul_sum, ← sum_sumi hblk hact, ← sum_prodMin hblk hact]
  push_cast
  ring

theorem sum_ggufDequantQ4K {n : Nat}
    (hfin : ∀ b < n, IsFinite (dBits (block (bytesOf row) b)) ∧ IsFinite (dminBits (block (bytesOf row) b)))
    (hacts : ∀ b < n, IsAct (acts b)) :
    ∑ i ∈ range (256 * n), ggufDequantQ4K (bytesOf row) i * ((acts (i / 256)).d * actQ (acts (i / 256)) (i % 256)) =
      ∑ b ∈ range n, blockDot (bytesOf row) acts b := by
  rw [← sum_groups (fun i => ggufDequantQ4K (bytesOf row) i * ((acts (i / 256)).d * (actQ (acts (i / 256)) (i % 256) : ℚ))) 256 n]
  refine sum_congr rfl fun b hb => ?_
  have hb' := mem_range.1 hb
  have helem : ∀ e ∈ range 256, ggufDequantQ4K (bytesOf row) (256 * b + e) *
      ((acts ((256 * b + e) / 256)).d * (actQ (acts ((256 * b + e) / 256)) ((256 * b + e) % 256) : ℚ)) =
        (acts b).d * (dequantBlock (block (bytesOf row) b) e * actQ (acts b) e) := by
    intro e he
    have he' := mem_range.1 he
    unfold ggufDequantQ4K
    rw [show (256 * b + e) / 256 = b by omega, show (256 * b + e) % 256 = e by omega]
    ring
  rw [sum_congr rfl helem, ← mul_sum, sum_dequantBlock (block_lt row b) (hacts b hb'), fp16Bits_eq (hfin b hb').1,
    fp16Bits_eq (hfin b hb').2]
  rfl

/-- Both bodies give the dot product with the decoded row, and no integer of 16 or 32 bits overflows on the way. -/
theorem fused_dequant {n : Nat}
    (hfin : ∀ b < n, IsFinite (dBits (block (bytesOf row) b)) ∧ IsFinite (dminBits (block (bytesOf row) b)))
    (hacts : ∀ b < n, IsAct (acts b)) :
    let reference := ∑ i ∈ range (256 * n), ggufDequantQ4K (bytesOf row) i * ((acts (i / 256)).d * actQ (acts (i / 256)) (i % 256))
    dotAvx2 (bytesOf row) acts n = reference ∧ dotScalar (bytesOf row) acts n = reference ∧
      ∀ b < n, NoOverflow (block (bytesOf row) b) (acts b) := by
  dsimp only
  rw [sum_ggufDequantQ4K hfin hacts]
  exact ⟨dotAvx2_eq hacts, dotScalar_eq _ _ n, fun b hb => noOverflow (block_lt row b) (hacts b hb)⟩

end

/-- Activations from -128 to 127. -/
def rampAct : Q8KActBlock ℚ where
  d := 1 / 2
  qs := (List.range 256).map fun i => (i : Int) - 128
  bsums := (List.range 16).map fun j => 256 * (j : Int) - 1928

theorem isAct_ramp : IsAct rampAct where
  codes := by decide +kernel
  bsums := by decide +kernel

theorem fused_dequant_ramp :
    dotAvx2 (bytesOf fun t => UInt8.ofNat t) (fun _ => rampAct) 2 =
      ∑ i ∈ range 512, ggufDequantQ4K (bytesOf fun t => UInt8.ofNat t) i * (1 / 2 * actQ rampAct (i % 256)) :=
  (fused_dequant (n := 2) (by unfold IsFinite; decide) fun _ _ => isAct_ramp).1

end BitForge.Q4k
