/-
The conversions of half-precision scales that are done by hand, `fp16_to_f32` of the decoders and `q4k_f16_to_f32` of the
fused kernel.
-/
import BitForge.Kernel.Q2Vnni

namespace BitForge.HalfFloat

open BitForge.Lib BitForge.Q2Vnni

/-! ## The conversions -/

/-- The loop of `q4k_f16_to_f32`: a subnormal mantissa is shifted up to its leading bit. -/
def q4kLoop : Nat → Nat → Nat → Nat × Nat
  | 0, m, eAdj => (m, eAdj)
  | fuel + 1, m, eAdj => if m &&& 0x400 = 0 then q4kLoop fuel (m <<< 1 % 2 ^ 32) (eAdj + 1) else (m, eAdj)

/-- The bits that `q4k_f16_to_f32` makes. -/
def q4kF16Bits (h : Nat) : Nat :=
  let sign := (h >>> 15) <<< 31
  let exp := (h >>> 10) &&& 0x1f
  if exp = 0 then
    let m := h &&& 0x3ff
    if m = 0 then 0
    else
      let (m, eAdj) := q4kLoop 10 m 0
      sign ||| (113 - eAdj) <<< 23 ||| (m &&& 0x3ff) <<< 13
  else if exp = 31 then sign ||| 0x7f800000 ||| (h &&& 0x3ff) <<< 13
  else sign ||| (exp + 112) <<< 23 ||| (h &&& 0x3ff) <<< 13

/-- `q4k_f16_to_f32` -/
def q4kF16ToF32 (h : Nat) : ℚ := Ieee.value 8 23 (q4kF16Bits h)

/-- The loop of `fp16_to_f32`, which counts the exponent down in `uint32_t`. -/
def fp16Loop : Nat → Nat → Nat → Nat × Nat
  | 0, mant, exp => (mant, exp)
  | fuel + 1, mant, exp =>
    if mant &&& 0x400 = 0 then fp16Loop fuel (mant <<< 1 % 2 ^ 32) ((exp + 2 ^ 32 - 1) % 2 ^ 32) else (mant, exp)

/-- The bits that `fp16_to_f32` makes. -/
def fp16Bits (h : Nat) : Nat :=
  let sign := (h >>> 15) <<< 31
  let exp := (h >>> 10) &&& 0x1f
  let mant := h &&& 0x3ff
  if exp = 0x1f then sign ||| 0x7f800000 ||| mant <<< 13
  else if exp = 0 then
    if mant = 0 then sign
    else
      let (mant, exp) := fp16Loop 10 mant 1
      sign ||| ((exp + 112) % 2 ^ 32) <<< 23 ||| (mant &&& 0x3ff) <<< 13
  else sign ||| (exp + 112) <<< 23 ||| mant <<< 13

/-- `fp16_to_f32` -/
def fp16ToF32 (h : Nat) : ℚ := Ieee.value 8 23 (fp16Bits h)

/-- A half that is a number: no infinity and no NaN. -/
def IsFinite (h : Nat) : Prop := Ieee.exponent 5 10 h ≠ 31

/-! ## Subnormal halves -/

/-- The loop shifts a mantissa up to its leading bit. -/
theorem q4kLoop_spec : ∀ m < 1024, m ≠ 0 →
    (q4kLoop 10 m 0).1 = m * 2 ^ (q4kLoop 10 m 0).2 ∧ 1024 ≤ (q4kLoop 10 m 0).1 ∧ (q4kLoop 10 m 0).1 < 2048 ∧
      (q4kLoop 10 m 0).2 ≤ 10 := by
  decide +kernel

/-- Both loops shift alike. -/
theorem fp16Loop_eq : ∀ m < 1024, m ≠ 0 →
    (fp16Loop 10 m 1).1 = (q4kLoop 10 m 0).1 ∧ ((fp16Loop 10 m 1).2 + 112) % 2 ^ 32 = 113 - (q4kLoop 10 m 0).2 := by
  decide +kernel

/-- The float that is made of a subnormal half. -/
theorem subnormal_value {m : Nat} (hm : m < 1024) (hne : m ≠ 0) (s : Nat) :
    Ieee.value 8 23 (s <<< 31 ||| (113 - (q4kLoop 10 m 0).2) <<< 23 ||| ((q4kLoop 10 m 0).1 &&& 0x3ff) <<< 13) =
      (if s % 2 = 1 then -1 else 1) * m * 2 ^ (-24 : Int) := by
  obtain ⟨heq, hlo, hhi, hadj⟩ := q4kLoop_spec m hm hne
  generalize (q4kLoop 10 m 0).1 = m' at heq hlo hhi ⊢
  generalize (q4kLoop 10 m 0).2 = e at heq hadj ⊢
  have hmask : m' &&& 0x3ff = m' - 1024 := by
    have hmod : m' &&& 0x3ff = m' % 2 ^ 10 := Nat.and_two_pow_sub_one_eq_mod m' 10
    omega
  have hcast : (2 : ℚ) ^ 10 + ((m' - 1024 : Nat) : ℚ) = m * 2 ^ e := by
    rw [Nat.cast_sub hlo, heq]
    push_cast
    ring
  have hpow : (2 : ℚ) ^ e * 2 ^ (((113 - e : Nat) : Int) - 137) = 2 ^ (-24 : Int) := by
    rw [← zpow_natCast (2 : ℚ) e, ← zpow_add₀ (by norm_num)]
    congr 1
    omega
  rw [value_fields (by omega) (by omega) (by omega), hmask, hcast, ← hpow]
  ring

/-! ## Both conversions are exact -/

theorem q4kF16ToF32_eq {h : Nat} (hf : IsFinite h) : q4kF16ToF32 h = Ieee.value 5 10 h := by
  have hexp : h >>> 10 &&& 0x1f = Ieee.exponent 5 10 h := by
    rw [Nat.shiftRight_eq_div_pow]
    exact Nat.and_two_pow_sub_one_eq_mod _ 5
  have hmant : h &&& 0x3ff = Ieee.mantissa 10 h := Nat.and_two_pow_sub_one_eq_mod _ 10
  have hmlt : Ieee.mantissa 10 h < 2 ^ 10 := Nat.mod_lt _ (by decide)
  have helt : Ieee.exponent 5 10 h < 2 ^ 5 := Nat.mod_lt _ (by decide)
  have hsign : h >>> 15 = h / 2 ^ 15 := Nat.shiftRight_eq_div_pow _ _
  unfold IsFinite at hf
  rw [half_value h]
  unfold q4kF16ToF32 q4kF16Bits
  dsimp only
  rw [hexp, hmant, hsign]
  by_cases hz : Ieee.exponent 5 10 h = 0
  · rw [if_pos hz, if_pos hz]
    by_cases hm : Ieee.mantissa 10 h = 0
    · rw [if_pos hm, hm]
      norm_num [Ieee.value, Ieee.exponent, Ieee.mantissa]
    · rw [if_neg hm]
      exact subnormal_value hmlt hm _
  · rw [if_neg hz, if_neg hz, if_neg hf, value_fields (by omega) (by omega) hmlt]
    congr 2
    omega

theorem fp16Bits_eq {h : Nat} (hf : IsFinite h) : fp16ToF32 h = q4kF16ToF32 h := by
  have hexp : h >>> 10 &&& 0x1f = Ieee.exponent 5 10 h := by
    rw [Nat.shiftRight_eq_div_pow]
    exact Nat.and_two_pow_sub_one_eq_mod _ 5
  have hmlt : h &&& 0x3ff < 1024 := Nat.and_lt_two_pow h (show 0x3ff < 2 ^ 10 by decide)
  unfold IsFinite at hf
  unfold fp16ToF32 q4kF16ToF32 fp16Bits q4kF16Bits
  dsimp only
  rw [hexp]
  by_cases hz : Ieee.exponent 5 10 h = 0
  · rw [if_neg hf, if_pos hz, if_pos hz]
    by_cases hm : h &&& 0x3ff = 0
    · -- a zero of either sign
      rw [if_pos hm, if_pos hm, Nat.shiftLeft_eq]
      have he : Ieee.exponent 8 23 ((h >>> 15) * 2 ^ 31) = 0 := by
        unfold Ieee.exponent
        omega
      have hmz : Ieee.mantissa 23 ((h >>> 15) * 2 ^ 31) = 0 := by
        unfold Ieee.mantissa
        omega
      unfold Ieee.value
      dsimp only
      rw [if_pos he, hmz]
      norm_num [Ieee.exponent, Ieee.mantissa]
    · obtain ⟨hloop, hadj⟩ := fp16Loop_eq _ hmlt hm
      rw [if_neg hm, if_neg hm, hloop, hadj]
  · rw [if_neg hf, if_neg hz, if_neg hz, if_neg hf]

theorem fp16ToF32_eq {h : Nat} (hf : IsFinite h) : fp16ToF32 h = Ieee.value 5 10 h := by
  rw [fp16Bits_eq hf, q4kF16ToF32_eq hf]

end BitForge.HalfFloat
