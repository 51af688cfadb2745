/-
The dot product of a row of Q2_0 blocks with quantized activations, as `matmul_q2_0_vnni.c` computes it: both unpacking
paths for the 2-bit codes, the reference row, which reduces each block to an integer, and the production row, which keeps
sixteen scaled partial sums. The floats are exact.
-/
import BitForge.Lib.Ieee
import BitForge.Lib.Simd

namespace BitForge.Q2Vnni

open Finset BitForge.Lib BitForge.Lib.Simd

/-! ## Unpacking -/

/-- `tn_bitunpack2_vbmi_perm_idx` -/
def permIdx : Nat → Nat := constByte
  [0x0101010100000000, 0x0303030302020202, 0x0505050504040404, 0x0707070706060606,
    0x0909090908080808, 0x0b0b0b0b0a0a0a0a, 0x0d0d0d0d0c0c0c0c, 0x0f0f0f0f0e0e0e0e]

/-- `tn_bitunpack2_vbmi_shift_ctrl` -/
def shiftCtrl : Nat → Nat := constByte (List.replicate 8 0x2624222006040200)

/-- `tn_unpack64_to_wenc_u8_vbmi` of the bytes `p`. -/
def unpack64Vbmi (p : Nat → Nat) : Nat → Nat :=
  let expanded := permutexvarEpi8 permIdx p
  let shifted := multishiftEpi64Epi8 shiftCtrl expanded
  andSet1 shifted 0x03

/-- `tn_unpack64_to_wenc_u8_sse` -/
def unpack64Sse (p : Nat → Nat) : Nat → Nat :=
  let m0 := andSet1 p 0x03
  let m1 := andSet1 (srliEpi16 p 2) 0x03
  let m2 := andSet1 (srliEpi16 p 4) 0x03
  let m3 := andSet1 (srliEpi16 p 6) 0x03
  let lo01 := unpackloEpi8 m0 m1
  let hi01 := unpackhiEpi8 m0 m1
  let lo23 := unpackloEpi8 m2 m3
  let hi23 := unpackhiEpi8 m2 m3
  let q0 := unpackloEpi16 lo01 lo23
  let q1 := unpackhiEpi16 lo01 lo23
  let q2 := unpackloEpi16 hi01 hi23
  let q3 := unpackhiEpi16 hi01 hi23
  inserti32x4 (inserti32x4 (inserti32x4 q0 q1 1) q2 2) q3 3

/-- `tn_unpack64_to_wenc_u8`, with what the test of the processor says. -/
def unpack64 (vbmi : Bool) (p : Nat → Nat) : Nat → Nat := if vbmi then unpack64Vbmi p else unpack64Sse p

/-- The code `i` of packed bytes, four to a byte. -/
def code (p : Nat → Nat) (i : Nat) : Nat := p (i / 4) / 4 ^ (i % 4) % 4

theorem unpack64Sse_eq {p : Nat → Nat} (hp : ∀ i, p i < 256) {i : Nat} (hi : i < 64) : unpack64Sse p i = code p i := by
  have hzero : ∀ j, andSet1 p 0x03 j = p j / 4 ^ 0 % 4 := fun j => by
    rw [andSet1_three, Nat.pow_zero, Nat.div_one]
  have h1 : ∀ j, andSet1 (srliEpi16 p 2) 0x03 j = p j / 4 ^ 1 % 4 := srliEpi16_and hp (k := 1) (by decide)
  have h2 : ∀ j, andSet1 (srliEpi16 p 4) 0x03 j = p j / 4 ^ 2 % 4 := srliEpi16_and hp (k := 2) (by decide)
  have h3 : ∀ j, andSet1 (srliEpi16 p 6) 0x03 j = p j / 4 ^ 3 % 4 := srliEpi16_and hp (k := 3) (by decide)
  unfold unpack64Sse code
  simp only [inserti32x4, unpackloEpi16, unpackhiEpi16, unpackloEpi8, unpackhiEpi8, hzero, h1, h2, h3]
  interval_cases i <;> rfl

theorem permIdx_eq : ∀ i < 64, permIdx i = i / 4 := by decide +kernel

theorem shiftCtrl_eq : ∀ i < 64, shiftCtrl i = 2 * (i % 4) + 32 * (i / 4 % 2) := by decide +kernel

/-- A word of the expanded bytes holds four copies of each of two bytes. -/
theorem qwordOf_expanded (p : Nat → Nat) {i : Nat} (hi : i < 64) :
    qwordOf (permutexvarEpi8 permIdx p) i = 16843009 * p (2 * (i / 8)) + 2 ^ 32 * (16843009 * p (2 * (i / 8) + 1)) := by
  have hbyte : ∀ t < 8, permutexvarEpi8 permIdx p (8 * (i / 8) + t) = p (2 * (i / 8) + t / 4) := by
    intro t ht
    unfold permutexvarEpi8
    rw [permIdx_eq _ (by omega)]
    congr 1
    omega
  unfold qwordOf
  simp only [sum_range_succ, range_zero, sum_empty]
  rw [hbyte 0 (by decide), hbyte 1 (by decide), hbyte 2 (by decide), hbyte 3 (by decide), hbyte 4 (by decide),
    hbyte 5 (by decide), hbyte 6 (by decide), hbyte 7 (by decide)]
  generalize p (2 * (i / 8)) = a
  generalize p (2 * (i / 8) + 1) = b
  ring

/-- The two bytes at their places in the word. -/
theorem word_bytes {a b : Nat} (ha : a < 256) (hb : b < 256) :
    (16843009 * a + 2 ^ 32 * (16843009 * b)) % 256 = a ∧ (16843009 * a + 2 ^ 32 * (16843009 * b)) / 2 ^ 32 % 256 = b := by
  constructor
  · omega
  · have hsmall : 16843009 * a < 2 ^ 32 := by omega
    rw [Nat.add_mul_div_left _ _ (by positivity), Nat.div_eq_of_lt hsmall, Nat.zero_add]
    omega

/-- The two bits of a byte that a position in the word leads to. -/
theorem bits_of_byte (w : Nat) {r : Nat} (hr : r < 4) : w / 2 ^ (2 * r) % 4 = w % 256 / 4 ^ r % 4 := by
  interval_cases r <;> norm_num <;> omega

theorem unpack64Vbmi_eq {p : Nat → Nat} (hp : ∀ i, p i < 256) {i : Nat} (hi : i < 64) : unpack64Vbmi p i = code p i := by
  obtain ⟨hlo, hhi⟩ := word_bytes (hp (2 * (i / 8))) (hp (2 * (i / 8) + 1))
  rw [← qwordOf_expanded p hi] at hlo hhi
  have hquarter : i / 4 = 2 * (i / 8) + i / 4 % 2 := by omega
  have hpos : i % 4 < 4 := Nat.mod_lt _ (by decide)
  have hshift : shiftCtrl i % 64 = 2 * (i % 4) + 32 * (i / 4 % 2) := by
    rw [shiftCtrl_eq i hi]
    omega
  have hwindow : unpack64Vbmi p i = qwordOf (permutexvarEpi8 permIdx p) i / 2 ^ (shiftCtrl i % 64) % 4 :=
    multishift_and (by omega)
  rw [hwindow, hshift]
  unfold code
  rcases Nat.mod_two_eq_zero_or_one (i / 4) with hpar | hpar
  · rw [hpar, Nat.add_zero] at hquarter
    rw [hpar, hquarter, Nat.mul_zero, Nat.add_zero, bits_of_byte _ hpos, hlo]
  · rw [hpar] at hquarter
    rw [hpar, hquarter, Nat.mul_one, Nat.add_comm, pow_add, ← Nat.div_div_eq_div_mul, bits_of_byte _ hpos, hhi]

/-- Both paths unpack the codes. -/
theorem unpack64_eq (vbmi : Bool) {p : Nat → Nat} (hp : ∀ i, p i < 256) {i : Nat} (hi : i < 64) :
    unpack64 vbmi p i = code p i := by
  unfold unpack64
  split
  · exact unpack64Vbmi_eq hp hi
  · exact unpack64Sse_eq hp hi

/-! ## The rows -/

/-- The 16 bits of the scale at the start of the block `b`; a block has 34 bytes. -/
def scaleBits (row : Nat → Nat) (b : Nat) : Nat := row (34 * b) + 256 * row (34 * b + 1)

/-- The bits that `q2_0v_f16_to_f32` makes of those of a half. -/
def f16ToF32Bits (h : Nat) : Nat :=
  let sign := h >>> 15 <<< 31
  let exp := h >>> 10 &&& 0x1f
  let mant := (h &&& 0x3ff) <<< 13
  if exp = 0 then sign ||| mant
  else if exp = 31 then sign ||| 0x7f800000 ||| mant
  else sign ||| (exp + 112) <<< 23 ||| mant

/-- `q2_0v_f16_to_f32` -/
def f16ToF32 (h : Nat) : ℚ := Ieee.value 8 23 (f16ToF32Bits h)

/-- `_mm_cvtph_ps` -/
def cvtphPs (h : Nat) : ℚ := Ieee.value 5 10 h

/-- The lanes of both `dpbusds` for the block `b`. -/
def blockLanes (vbmi : Bool) (row : Nat → Nat) (qx : Nat → Int) (b : Nat) : Nat → Int :=
  let qs := fun i => row (34 * b + 2 + i)
  let qxb := fun i => qx (128 * b + i)
  let wenc0 := unpack64 vbmi qs
  let wenc1 := unpack64 vbmi fun i => qs (16 + i)
  dpbusds (dpbusds (fun _ => 0) wenc0 qxb) wenc1 fun i => qxb (64 + i)

/-- `dot_q2_0_row_vnni_ref` -/
def dotRowRef (vbmi : Bool) (row : Nat → Nat) (qx : Nat → Int) (sumQxBlocks : Nat → Int) : Nat → ℚ
  | 0 => 0
  | b + 1 =>
    let vnniResult := reduceAddEpi32 (blockLanes vbmi row qx b)
    let trueDot := wrap 32 (vnniResult - sumQxBlocks b)
    dotRowRef vbmi row qx sumQxBlocks b + trueDot * f16ToF32 (scaleBits row b)

/-- The sixteen partial sums of `dot_q2_0_row_vnni`. -/
def accf (vbmi : Bool) (row : Nat → Nat) (qx : Nat → Int) : Nat → Nat → ℚ
  | 0 => fun _ => 0
  | b + 1 => fun l => blockLanes vbmi row qx b l * cvtphPs (scaleBits row b) + accf vbmi row qx b l

def corr (row : Nat → Nat) (sumQxBlocks : Nat → Int) : Nat → ℚ
  | 0 => 0
  | b + 1 => corr row sumQxBlocks b + sumQxBlocks b * cvtphPs (scaleBits row b)

/-- `dot_q2_0_row_vnni` -/
def dotRow (vbmi : Bool) (row : Nat → Nat) (qx : Nat → Int) (sumQxBlocks : Nat → Int) (nBlocks : Nat) : ℚ :=
  ∑ l ∈ range 16, accf vbmi row qx nBlocks l - corr row sumQxBlocks nBlocks

/-- `sum_i8` -/
def sumI8 (arr : Nat → Int) : Nat → Int
  | 0 => 0
  | n + 1 => wrap 32 (sumI8 arr n + arr n)

/-- The sums that `matmul_q2_0_vnni_run` hands to both rows. -/
def sumQxBlocks (qx : Nat → Int) (b : Nat) : Int := sumI8 (fun i => qx (128 * b + i)) 128

/-- The product of the row with the activations: the code 0 stands for -1, and 3 for 2. -/
def rowDot (row : Nat → Nat) (qx : Nat → Int) (nBlocks : Nat) : ℚ :=
  ∑ b ∈ range nBlocks, Ieee.value 5 10 (scaleBits row b) *
    ((∑ j ∈ range 128, ((code (fun i => row (34 * b + 2 + i)) j : Int) - 1) * qx (128 * b + j) : Int) : ℚ)

/-! ## One block -/

theorem code_lt (p : Nat → Nat) (i : Nat) : code p i < 4 := Nat.mod_lt _ (by decide)

/-- A product of a code and an activation. -/
theorem code_mul_bounds (p : Nat → Nat) (i : Nat) {q : Int} (hq : -127 ≤ q ∧ q ≤ 127) :
    -381 ≤ (code p i : Int) * q ∧ (code p i : Int) * q ≤ 381 := by
  have hcode := code_lt p i
  interval_cases hc : code p i <;> constructor <;> push_cast <;> omega

/-- A sum of products without saturation. -/
theorem dpbusds_eq {acc : Nat → Int} {u : Nat → Nat} {s : Nat → Int} {l : Nat} {B : Int}
    (hacc : -B ≤ acc l ∧ acc l ≤ B) (hB : B ≤ 2 ^ 30)
    (hprod : ∀ t < 4, -381 ≤ (u (4 * l + t) : Int) * s (4 * l + t) ∧ (u (4 * l + t) : Int) * s (4 * l + t) ≤ 381) :
    dpbusds acc u s l = acc l + ∑ t ∈ range 4, (u (4 * l + t) : Int) * s (4 * l + t) := by
  have h0 := hprod 0 (by decide)
  have h1 := hprod 1 (by decide)
  have h2 := hprod 2 (by decide)
  have h3 := hprod 3 (by decide)
  unfold dpbusds
  apply saturate_eq
  · simp only [sum_range_succ, range_zero, sum_empty]
    omega
  · simp only [sum_range_succ, range_zero, sum_empty]
    omega

/-- The product of the codes of a block with its activations. -/
def codeDot (row : Nat → Nat) (qx : Nat → Int) (b : Nat) : Int :=
  ∑ j ∈ range 128, (code (fun i => row (34 * b + 2 + i)) j : Int) * qx (128 * b + j)

section

variable {row : Nat → Nat} {qx : Nat → Int}

/-- A lane holds four products of each half of the block. -/
theorem blockLanes_eq (vbmi : Bool) (hrow : ∀ i, row i < 256) (hq : ∀ i, -127 ≤ qx i ∧ qx i ≤ 127) (b : Nat) {l : Nat}
    (hl : l < 16) :
    blockLanes vbmi row qx b l =
      ∑ t ∈ range 4, (code (fun i => row (34 * b + 2 + i)) (4 * l + t) : Int) * qx (128 * b + (4 * l + t)) +
        ∑ t ∈ range 4, (code (fun i => row (34 * b + 2 + i)) (64 + (4 * l + t)) : Int) * qx (128 * b + (64 + (4 * l + t))) := by
  set p := fun i => row (34 * b + 2 + i) with hp
  have hbyte : ∀ i, p i < 256 := fun i => hrow _
  have hupper : ∀ j, code (fun i => p (16 + i)) j = code p (64 + j) := by
    intro j
    have hdiv : (64 + j) / 4 = 16 + j / 4 := by omega
    have hmod : (64 + j) % 4 = j % 4 := by omega
    unfold code
    rw [hdiv, hmod]
  have hlow : ∀ t < 4, (unpack64 vbmi p (4 * l + t) : Int) * qx (128 * b + (4 * l + t)) =
      (code p (4 * l + t) : Int) * qx (128 * b + (4 * l + t)) := fun t ht => by
    rw [unpack64_eq vbmi hbyte (by omega)]
  have hhigh : ∀ t < 4, (unpack64 vbmi (fun i => p (16 + i)) (4 * l + t) : Int) * qx (128 * b + (64 + (4 * l + t))) =
      (code p (64 + (4 * l + t)) : Int) * qx (128 * b + (64 + (4 * l + t))) := fun t ht => by
    rw [unpack64_eq vbmi (fun i => hbyte _) (by omega), hupper]
  have hfirst : dpbusds (fun _ => 0) (unpack64 vbmi p) (fun i => qx (128 * b + i)) l =
      ∑ t ∈ range 4, (code p (4 * l + t) : Int) * qx (128 * b + (4 * l + t)) := by
    rw [dpbusds_eq (B := 0) ⟨by simp, by simp⟩ (by norm_num) fun t ht => by
      rw [hlow t ht]
      exact code_mul_bounds _ _ (hq _), zero_add]
    exact sum_congr rfl fun t ht => hlow t (mem_range.1 ht)
  have hbound : -1524 ≤ ∑ t ∈ range 4, (code p (4 * l + t) : Int) * qx (128 * b + (4 * l + t)) ∧
      ∑ t ∈ range 4, (code p (4 * l + t) : Int) * qx (128 * b + (4 * l + t)) ≤ 1524 := by
    have h0 := code_mul_bounds p (4 * l + 0) (hq (128 * b + (4 * l + 0)))
    have h1 := code_mul_bounds p (4 * l + 1) (hq (128 * b + (4 * l + 1)))
    have h2 := code_mul_bounds p (4 * l + 2) (hq (128 * b + (4 * l + 2)))
    have h3 := code_mul_bounds p (4 * l + 3) (hq (128 * b + (4 * l + 3)))
    simp only [sum_range_succ, range_zero, sum_empty]
    omega
  unfold blockLanes
  dsimp only
  rw [dpbusds_eq (B := 1524) (by rw [hfirst]; exact hbound) (by norm_num) fun t ht => by
    rw [hhigh t ht]
    exact code_mul_bounds _ _ (hq _), hfirst]
  exact congrArg _ (sum_congr rfl fun t ht => hhigh t (mem_range.1 ht))

theorem sum_blockLanes (vbmi : Bool) (hrow : ∀ i, row i < 256) (hq : ∀ i, -127 ≤ qx i ∧ qx i ≤ 127) (b : Nat) :
    ∑ l ∈ range 16, blockLanes vbmi row qx b l = codeDot row qx b := by
  rw [sum_congr rfl fun l hl => blockLanes_eq vbmi hrow hq b (mem_range.1 hl), sum_add_distrib]
  unfold codeDot
  generalize (fun i => row (34 * b + 2 + i)) = p
  rw [sum_groups (fun j => (code p j : Int) * qx (128 * b + j)) 4 16,
    sum_groups (fun j => (code p (64 + j) : Int) * qx (128 * b + (64 + j))) 4 16]
  exact (sum_range_add (fun j => (code p j : Int) * qx (128 * b + j)) 64 64).symm

theorem codeDot_bounds (hq : ∀ i, -127 ≤ qx i ∧ qx i ≤ 127) (b : Nat) :
    -48768 ≤ codeDot row qx b ∧ codeDot row qx b ≤ 48768 := by
  have hterm := fun j => code_mul_bounds (fun i => row (34 * b + 2 + i)) j (hq (128 * b + j))
  unfold codeDot
  constructor
  · have hsum := sum_le_sum fun j (_ : j ∈ range 128) => (hterm j).1
    simpa using hsum
  · have hsum := sum_le_sum fun j (_ : j ∈ range 128) => (hterm j).2
    simpa using hsum

/-- `sum_i8` is exact for a length that keeps it far from `2 ^ 31`. -/
theorem sumI8_eq {arr : Nat → Int} (harr : ∀ i, -128 ≤ arr i ∧ arr i ≤ 127) : ∀ {n : Nat}, n ≤ 2 ^ 23 →
    sumI8 arr n = ∑ i ∈ range n, arr i ∧ -(128 * n : Int) ≤ sumI8 arr n ∧ sumI8 arr n ≤ 127 * n
  | 0, _ => by simp [sumI8]
  | n + 1, hn => by
    obtain ⟨heq, hlo, hhi⟩ := sumI8_eq harr (n := n) (by omega)
    obtain ⟨hl, hh⟩ := harr n
    have hwrap : wrap 32 (sumI8 arr n + arr n) = sumI8 arr n + arr n := wrap_eq (by omega) (by omega)
    unfold sumI8
    rw [hwrap, sum_range_succ, heq]
    refine ⟨rfl, ?_, ?_⟩ <;> push_cast <;> omega

theorem sumQxBlocks_eq (hq : ∀ i, -127 ≤ qx i ∧ qx i ≤ 127) (b : Nat) :
    sumQxBlocks qx b = ∑ j ∈ range 128, qx (128 * b + j) ∧ -16384 ≤ sumQxBlocks qx b ∧ sumQxBlocks qx b ≤ 16384 := by
  have hblock : ∀ i, -128 ≤ qx (128 * b + i) ∧ qx (128 * b + i) ≤ 127 := fun i => by
    have hi := hq (128 * b + i)
    constructor <;> omega
  obtain ⟨heq, hlo, hhi⟩ := sumI8_eq hblock (n := 128) (by decide)
  refine ⟨heq, ?_, ?_⟩
  · unfold sumQxBlocks
    omega
  · unfold sumQxBlocks
    omega

/-- The codes count from 0, the weights from -1. -/
theorem codeDot_sub (hq : ∀ i, -127 ≤ qx i ∧ qx i ≤ 127) (b : Nat) :
    codeDot row qx b - sumQxBlocks qx b =
      ∑ j ∈ range 128, ((code (fun i => row (34 * b + 2 + i)) j : Int) - 1) * qx (128 * b + j) := by
  rw [(sumQxBlocks_eq hq b).1]
  unfold codeDot
  rw [← sum_sub_distrib]
  exact sum_congr rfl fun j _ => by ring

end

/-! ## The scale -/

/-- Fields that do not overlap add up. -/
theorem fields_or {s e m : Nat} (he : e < 256) (hm : m < 2 ^ 23) : s <<< 31 ||| e <<< 23 ||| m = s * 2 ^ 31 + e * 2 ^ 23 + m := by
  have hem : e <<< 23 ||| m = e * 2 ^ 23 + m := by
    rw [← Nat.shiftLeft_add_eq_or_of_lt hm, Nat.shiftLeft_eq]
  have hlt : e * 2 ^ 23 + m < 2 ^ 31 := by omega
  rw [Nat.or_assoc, hem, ← Nat.shiftLeft_add_eq_or_of_lt hlt, Nat.shiftLeft_eq, Nat.add_assoc]

/-- A normal float whose mantissa has ten bits. -/
theorem value_fields {s e m : Nat} (he0 : 1 ≤ e) (he : e ≤ 254) (hm : m < 2 ^ 10) :
    Ieee.value 8 23 (s <<< 31 ||| e <<< 23 ||| m <<< 13) = (if s % 2 = 1 then -1 else 1) * (2 ^ 10 + m) * 2 ^ ((e : Int) - 137) := by
  rw [Nat.shiftLeft_eq m 13, fields_or (by omega) (by omega)]
  have hexp : Ieee.exponent 8 23 (s * 2 ^ 31 + e * 2 ^ 23 + m * 2 ^ 13) = e := by
    unfold Ieee.exponent
    omega
  have hmant : Ieee.mantissa 23 (s * 2 ^ 31 + e * 2 ^ 23 + m * 2 ^ 13) = m * 2 ^ 13 := by
    unfold Ieee.mantissa
    omega
  have hsign : Ieee.signOf 8 23 (s * 2 ^ 31 + e * 2 ^ 23 + m * 2 ^ 13) = if s % 2 = 1 then -1 else 1 := by
    have hdiv : (s * 2 ^ 31 + e * 2 ^ 23 + m * 2 ^ 13) / 2 ^ (8 + 23) = s := by omega
    unfold Ieee.signOf
    rw [hdiv]
  have hpow : (2 : ℚ) ^ ((e : Int) - (2 ^ (8 - 1) - 1) - 23) * 2 ^ 13 = 2 ^ ((e : Int) - 137) := by
    rw [← zpow_natCast (2 : ℚ) 13, ← zpow_add₀ (by norm_num)]
    congr 1
    push_cast
    ring
  unfold Ieee.value
  dsimp only
  rw [hexp, hmant, hsign, if_neg (by omega), ← hpow]
  push_cast
  ring

/-- The value of a half by its fields. -/
theorem half_value (h : Nat) : Ieee.value 5 10 h =
    if Ieee.exponent 5 10 h = 0 then (if h / 2 ^ 15 % 2 = 1 then -1 else 1 : ℚ) * Ieee.mantissa 10 h * 2 ^ (-24 : Int)
    else (if h / 2 ^ 15 % 2 = 1 then -1 else 1 : ℚ) * (2 ^ 10 + Ieee.mantissa 10 h) *
      2 ^ ((Ieee.exponent 5 10 h : Int) - 25) := by
  have hexp : (Ieee.exponent 5 10 h : Int) - (2 ^ (5 - 1) - 1) - (10 : Nat) = Ieee.exponent 5 10 h - 25 := by
    push_cast
    ring
  unfold Ieee.value Ieee.signOf
  dsimp only
  rw [hexp]
  rfl

/-- The conversion by hand is the one of the processor, for zeros and normal numbers. -/
theorem f16ToF32_eq {h : Nat} (hh : h < 2 ^ 16) (hn : Ieee.IsZeroOrNormal 5 10 h) : f16ToF32 h = cvtphPs h := by
  obtain ⟨hmax, hzero⟩ := hn
  have hexp : h >>> 10 &&& 0x1f = Ieee.exponent 5 10 h := by
    rw [Nat.shiftRight_eq_div_pow]
    exact Nat.and_two_pow_sub_one_eq_mod _ 5
  have hmant : h &&& 0x3ff = Ieee.mantissa 10 h := Nat.and_two_pow_sub_one_eq_mod _ 10
  have hmlt : Ieee.mantissa 10 h < 2 ^ 10 := Nat.mod_lt _ (by decide)
  have hsign : h >>> 15 = h / 2 ^ 15 := Nat.shiftRight_eq_div_pow _ _
  have hslt : h / 2 ^ 15 < 2 := by omega
  unfold f16ToF32 cvtphPs f16ToF32Bits
  dsimp only
  rw [hexp, hmant, hsign]
  have hsignOf : Ieee.signOf 5 10 h = if h / 2 ^ 15 % 2 = 1 then -1 else 1 := rfl
  by_cases hz : Ieee.exponent 5 10 h = 0
  · have hbits : (h / 2 ^ 15) <<< 31 ||| (0 : Nat) <<< 13 = h / 2 ^ 15 * 2 ^ 31 := by
      rw [Nat.zero_shiftLeft, Nat.or_zero, Nat.shiftLeft_eq]
    rw [if_pos hz, hzero hz, hbits]
    have he : Ieee.exponent 8 23 (h / 2 ^ 15 * 2 ^ 31) = 0 := by
      unfold Ieee.exponent
      omega
    have hm : Ieee.mantissa 23 (h / 2 ^ 15 * 2 ^ 31) = 0 := by
      unfold Ieee.mantissa
      omega
    unfold Ieee.value
    dsimp only
    rw [if_pos he, if_pos hz, hm, hzero hz]
    simp
  · have hne : Ieee.exponent 5 10 h ≠ 31 := by omega
    have hpow : ((Ieee.exponent 5 10 h + 112 : Nat) : Int) - 137 = Ieee.exponent 5 10 h - 25 := by omega
    rw [if_neg hz, if_neg hne, value_fields (by omega) (by omega) hmlt, half_value, if_neg hz, hpow]

/-! ## The whole row -/

section

variable {row : Nat → Nat} {qx : Nat → Int}

theorem scaleBits_lt (hrow : ∀ i, row i < 256) (b : Nat) : scaleBits row b < 2 ^ 16 := by
  have hlo := hrow (34 * b)
  have hhi := hrow (34 * b + 1)
  unfold scaleBits
  omega

theorem rowDot_succ (row : Nat → Nat) (qx : Nat → Int) (n : Nat) :
    rowDot row qx (n + 1) = rowDot row qx n + cvtphPs (scaleBits row n) *
      ((∑ j ∈ range 128, ((code (fun i => row (34 * n + 2 + i)) j : Int) - 1) * qx (128 * n + j) : Int) : ℚ) :=
  sum_range_succ _ n

theorem dotRowRef_eq (vbmi : Bool) (hrow : ∀ i, row i < 256) (hq : ∀ i, -127 ≤ qx i ∧ qx i ≤ 127) : ∀ {n : Nat},
    (∀ b < n, Ieee.IsZeroOrNormal 5 10 (scaleBits row b)) → dotRowRef vbmi row qx (sumQxBlocks qx) n = rowDot row qx n
  | 0, _ => rfl
  | n + 1, hd => by
    have hscale := f16ToF32_eq (scaleBits_lt hrow n) (hd n (Nat.lt_succ_self n))
    obtain ⟨hlo, hhi⟩ := @codeDot_bounds row qx hq n
    obtain ⟨-, hslo, hshi⟩ := sumQxBlocks_eq hq n
    have hreduce : reduceAddEpi32 (blockLanes vbmi row qx n) = codeDot row qx n := by
      unfold reduceAddEpi32
      rw [sum_blockLanes vbmi hrow hq]
      exact wrap_eq (by omega) (by omega)
    have htrue : wrap 32 (codeDot row qx n - sumQxBlocks qx n) = codeDot row qx n - sumQxBlocks qx n :=
      wrap_eq (by omega) (by omega)
    have ih := dotRowRef_eq vbmi hrow hq fun b hb => hd b (Nat.lt_succ_of_lt hb)
    unfold dotRowRef
    dsimp only
    rw [hreduce, htrue, hscale, ih, codeDot_sub hq, rowDot_succ, mul_comm (cvtphPs _)]

/-- The partial sums of all lanes, together with the correction. -/
theorem sum_accf (vbmi : Bool) (hrow : ∀ i, row i < 256) (hq : ∀ i, -127 ≤ qx i ∧ qx i ≤ 127) : ∀ n : Nat,
    ∑ l ∈ range 16, accf vbmi row qx n l - corr row (sumQxBlocks qx) n = rowDot row qx n
  | 0 => by simp [accf, corr, rowDot]
  | n + 1 => by
    have ih := sum_accf vbmi hrow hq n
    have hlanes : ∑ l ∈ range 16, (blockLanes vbmi row qx n l : ℚ) = (codeDot row qx n : ℚ) := by
      rw [← sum_blockLanes vbmi hrow hq]
      push_cast
      rfl
    have hsub : (codeDot row qx n : ℚ) - (sumQxBlocks qx n : ℚ) =
        ((∑ j ∈ range 128, ((code (fun i => row (34 * n + 2 + i)) j : Int) - 1) * qx (128 * n + j) : Int) : ℚ) := by
      rw [← codeDot_sub hq]
      push_cast
      rfl
    rw [rowDot_succ, ← ih, ← hsub]
    simp only [accf, corr, sum_add_distrib, ← sum_mul, hlanes]
    ring

/-- Both unpacking paths give the same codes, and both rows the product of the codes with the activations, block by block
with the scale of the block. -/
theorem row_dots_exact (vbmi : Bool) (hrow : ∀ i, row i < 256) (hq : ∀ i, -127 ≤ qx i ∧ qx i ≤ 127) {nBlocks : Nat}
    (hd : ∀ b < nBlocks, Ieee.IsZeroOrNormal 5 10 (scaleBits row b)) :
    (∀ p : Nat → Nat, (∀ i, p i < 256) → ∀ i < 64, unpack64Vbmi p i = unpack64Sse p i ∧ unpack64Sse p i = code p i) ∧
      dotRowRef vbmi row qx (sumQxBlocks qx) nBlocks = rowDot row qx nBlocks ∧
      dotRow vbmi row qx (sumQxBlocks qx) nBlocks = rowDot row qx nBlocks := by
  refine ⟨fun p hp i hi => ?_, dotRowRef_eq vbmi hrow hq hd, sum_accf vbmi hrow hq nBlocks⟩
  rw [unpack64Vbmi_eq hp hi, unpack64Sse_eq hp hi]
  exact ⟨rfl, rfl⟩

end

/-- A block of the scale 1 with the codes 3, 2, 1, 0 in each byte, and activations of 5. -/
theorem row_dots_exact_one_block :
    dotRow true (fun i => if i = 1 then 0x3c else if i = 0 then 0 else 0x1b) (fun _ => 5)
      (sumQxBlocks fun _ => 5) 1 =
    rowDot (fun i => if i = 1 then 0x3c else if i = 0 then 0 else 0x1b) (fun _ => 5) 1 :=
  (row_dots_exact true (fun i => by split_ifs <;> decide) (fun _ => by decide) (by decide +kernel)).2.2

end BitForge.Q2Vnni
