/-
Vector registers as functions of the lane, and the intrinsics of the integer kernels on them: bytes are unsigned numbers,
wider lanes are integers. A lane beyond those of a register is not looked at.
-/
import Mathlib.Algebra.BigOperators.Intervals
import Mathlib.Tactic

namespace BitForge.Lib.Simd

open Finset

/-! ## Integer lanes -/

/-- The lower `w` bits of an integer, in two's complement. -/
def wrap (w : Nat) (x : Int) : Int := x.bmod (2 ^ w)

theorem wrap_eq {w : Nat} {x : Int} (hlo : -2 ^ w ≤ x) (hhi : x < 2 ^ w) : wrap (w + 1) x = x := by
  have hpow : (2 : Int) ^ (w + 1) = 2 * 2 ^ w := by ring
  unfold wrap
  refine Int.bmod_eq_of_le ?_ ?_ <;> push_cast <;> omega

theorem wrap_add_left (w : Nat) (x y : Int) : wrap w (wrap w x + y) = wrap w (x + y) := Int.bmod_add_bmod

theorem wrap_add_right (w : Nat) (x y : Int) : wrap w (x + wrap w y) = wrap w (x + y) := Int.add_bmod_bmod

theorem wrap_sub_left (w : Nat) (x y : Int) : wrap w (wrap w x - y) = wrap w (x - y) := Int.bmod_sub_bmod

theorem wrap_sub_right (w : Nat) (x y : Int) : wrap w (x - wrap w y) = wrap w (x - y) := Int.sub_bmod_bmod

theorem wrap_wrap (w : Nat) (x : Int) : wrap w (wrap w x) = wrap w x := Int.bmod_bmod

/-- A number that an integer of `w` bits holds. -/
def Fits (w : Nat) (x : Int) : Prop := -2 ^ (w - 1) ≤ x ∧ x < 2 ^ (w - 1)

theorem fits_of_abs {w B : Nat} {x : Int} (hx : |x| ≤ B) (hB : B < 2 ^ (w - 1)) : Fits w x := by
  have hcast : (B : Int) < 2 ^ (w - 1) := by exact_mod_cast hB
  obtain ⟨hlo, hhi⟩ := abs_le.1 hx
  exact ⟨by omega, by omega⟩

theorem wrap_of_fits {w : Nat} {x : Int} (hx : Fits (w + 1) x) : wrap (w + 1) x = x := wrap_eq hx.1 hx.2

/-- Signed saturation to `w` bits. -/
def saturate (w : Nat) (x : Int) : Int := max (-2 ^ (w - 1)) (min x (2 ^ (w - 1) - 1))

theorem saturate_eq {w : Nat} {x : Int} (hlo : -2 ^ (w - 1) ≤ x) (hhi : x < 2 ^ (w - 1)) : saturate w x = x := by
  unfold saturate
  rw [min_eq_left (by omega), max_eq_right hlo]

theorem saturate_of_fits {w : Nat} {x : Int} (hx : Fits w x) : saturate w x = x := saturate_eq hx.1 hx.2

/-- `_mm512_dpbusds_epi32`: products of unsigned and signed bytes, four to a lane. -/
def dpbusds (acc : Nat → Int) (u : Nat → Nat) (s : Nat → Int) : Nat → Int := fun l =>
  saturate 32 (acc l + ∑ t ∈ range 4, (u (4 * l + t) : Int) * s (4 * l + t))

/-- `_mm512_reduce_add_epi32` -/
def reduceAddEpi32 (v : Nat → Int) : Int := wrap 32 (∑ l ∈ range 16, v l)

/-- A conversion to 32 bits: of what does not fit, the least integer is made. -/
def cvtEpi32 (x : Int) : Int := if -2 ^ 31 ≤ x ∧ x < 2 ^ 31 then x else -2 ^ 31

/-- `_mm_packs_epi32` -/
def packsEpi32 (a b : Nat → Int) : Nat → Int := fun i => saturate 16 (if i < 4 then a i else b (i - 4))

/-- `_mm_packs_epi16` -/
def packsEpi16 (a b : Nat → Int) : Nat → Int := fun i => saturate 8 (if i < 8 then a i else b (i - 8))

/-- `_mm_add_epi16` -/
def addEpi16 (a b : Nat → Int) : Nat → Int := fun i => wrap 16 (a i + b i)

/-- `_mm_hadd_epi16` -/
def haddEpi16 (a b : Nat → Int) : Nat → Int := fun i =>
  if i < 4 then wrap 16 (a (2 * i) + a (2 * i + 1)) else wrap 16 (b (2 * (i - 4)) + b (2 * (i - 4) + 1))

/-- `_mm256_maddubs_epi16` -/
def maddubsEpi16 (u : Nat → Nat) (s : Nat → Int) : Nat → Int := fun m =>
  saturate 16 ((u (2 * m) : Int) * s (2 * m) + (u (2 * m + 1) : Int) * s (2 * m + 1))

/-- `_mm256_madd_epi16` -/
def maddEpi16 (a b : Nat → Int) : Nat → Int := fun l => wrap 32 (a (2 * l) * b (2 * l) + a (2 * l + 1) * b (2 * l + 1))

/-- The sums of a number of lanes fit: `_mm_hadd_epi16`, `_mm256_maddubs_epi16` and `_mm256_madd_epi16`. -/
def HaddFits (a : Nat → Int) (n : Nat) : Prop := ∀ j < n, Fits 16 (a (2 * j) + a (2 * j + 1))

def MaddubsFits (u : Nat → Nat) (s : Nat → Int) (n : Nat) : Prop :=
  ∀ m < n, Fits 16 ((u (2 * m) : Int) * s (2 * m) + (u (2 * m + 1) : Int) * s (2 * m + 1))

def MaddFits (a b : Nat → Int) (n : Nat) : Prop := ∀ l < n, Fits 32 (a (2 * l) * b (2 * l) + a (2 * l + 1) * b (2 * l + 1))

theorem maddubsEpi16_eq {u : Nat → Nat} {s : Nat → Int} {n m : Nat} (h : MaddubsFits u s n) (hm : m < n) :
    maddubsEpi16 u s m = (u (2 * m) : Int) * s (2 * m) + (u (2 * m + 1) : Int) * s (2 * m + 1) := saturate_of_fits (h m hm)

theorem maddEpi16_eq {a b : Nat → Int} {n l : Nat} (h : MaddFits a b n) (hl : l < n) :
    maddEpi16 a b l = a (2 * l) * b (2 * l) + a (2 * l + 1) * b (2 * l + 1) := wrap_of_fits (h l hl)

theorem cvtEpi32_eq {x : Int} (hlo : -2 ^ 31 ≤ x) (hhi : x < 2 ^ 31) : cvtEpi32 x = x := if_pos ⟨hlo, hhi⟩

/-! ## Bytes -/

/-- The byte `i` of a constant that is given by its 64-bit words. -/
def constByte (qwords : List Nat) (i : Nat) : Nat := qwords.getD (i / 8) 0 / 256 ^ (i % 8) % 256

/-- `_mm_and_si128` with the same byte in all lanes -/
def andSet1 (v : Nat → Nat) (mask : Nat) : Nat → Nat := fun i => v i &&& mask

/-- `_mm_srli_epi16` -/
def srliEpi16 (v : Nat → Nat) (k : Nat) : Nat → Nat := fun i =>
  (v (2 * (i / 2)) + 256 * v (2 * (i / 2) + 1)) / 2 ^ k / 256 ^ (i % 2) % 256

/-- `_mm_unpacklo_epi8` -/
def unpackloEpi8 (a b : Nat → Nat) : Nat → Nat := fun i => if i % 2 = 0 then a (i / 2) else b (i / 2)

/-- `_mm_unpackhi_epi8` -/
def unpackhiEpi8 (a b : Nat → Nat) : Nat → Nat := fun i => if i % 2 = 0 then a (8 + i / 2) else b (8 + i / 2)

/-- `_mm_unpacklo_epi16`, by bytes -/
def unpackloEpi16 (a b : Nat → Nat) : Nat → Nat := fun i =>
  if i / 2 % 2 = 0 then a (2 * (i / 4) + i % 2) else b (2 * (i / 4) + i % 2)

/-- `_mm_unpackhi_epi16`, by bytes -/
def unpackhiEpi16 (a b : Nat → Nat) : Nat → Nat := fun i =>
  if i / 2 % 2 = 0 then a (8 + 2 * (i / 4) + i % 2) else b (8 + 2 * (i / 4) + i % 2)

/-- `_mm512_inserti32x4`: 16 bytes at the position `k`. -/
def inserti32x4 (v a : Nat → Nat) (k : Nat) : Nat → Nat := fun i => if i / 16 = k then a (i % 16) else v i

/-- `_mm512_permutexvar_epi8` -/
def permutexvarEpi8 (idx a : Nat → Nat) : Nat → Nat := fun i => a (idx i % 64)

/-- `_mm256_shuffle_epi8`: within each half of 16 bytes. -/
def shuffleEpi8 (v ctrl : Nat → Nat) : Nat → Nat := fun i => if ctrl i < 128 then v (16 * (i / 16) + ctrl i % 16) else 0

theorem shuffleEpi8_eq {v ctrl : Nat → Nat} {i c : Nat} (hctrl : ctrl i = c) (hc : c < 128) :
    shuffleEpi8 v ctrl i = v (16 * (i / 16) + c % 16) := by
  subst hctrl
  exact if_pos hc

/-- `_mm256_blendv_epi8`: the upper bit of each byte of the mask selects. -/
def blendvEpi8 (a b mask : Nat → Nat) : Nat → Nat := fun i => if 128 ≤ mask i then b i else a i

/-- `_mm256_set_m128i` -/
def setM128i (hi lo : Nat → Nat) : Nat → Nat := fun i => if i < 16 then lo i else hi (i - 16)

/-- `_mm256_sub_epi8`, as signed bytes -/
def subEpi8 (a b : Nat → Nat) : Nat → Int := fun i => wrap 8 ((a i : Int) - b i)

/-- The 64-bit word that the byte `i` is in. -/
def qwordOf (v : Nat → Nat) (i : Nat) : Nat := ∑ t ∈ range 8, v (8 * (i / 8) + t) * 256 ^ t

/-- `_mm512_multishift_epi64_epi8`: the eight bits of the 64-bit word from a position on, around its end. -/
def multishiftEpi64Epi8 (ctrl v : Nat → Nat) : Nat → Nat := fun i =>
  let s := ctrl i % 64
  (qwordOf v i / 2 ^ s + qwordOf v i * 2 ^ (64 - s)) % 256

/-! ## Lanes of 32 bits -/

/-- `_mm256_shuffle_epi32`: lanes of `k` elements each, within each half of the register. -/
def shuffleEpi32 {α : Type} (k : Nat) (v : Nat → α) (imm : Nat) : Nat → α := fun i =>
  v (4 * k * (i / (4 * k)) + k * (imm / 4 ^ (i / k % 4) % 4) + i % k)

/-- `_mm256_blend_epi32`, by bytes -/
def blendEpi32 (a b : Nat → Nat) (imm : Nat) : Nat → Nat := fun i => if imm / 2 ^ (i / 4) % 2 = 1 then b i else a i

/-- `_mm256_permute2f128_si256(v, v, 0)`, with `n` elements in a half. -/
def permute2f128Low {α : Type} (n : Nat) (v : Nat → α) : Nat → α := fun i => v (i % n)

/-- `_mm256_bsrli_epi128`, for lanes of 16 bits. -/
def bsrliEpi128 (v : Nat → Int) (bytes : Nat) : Nat → Int := fun i =>
  if i % 8 + bytes / 2 < 8 then v (i + bytes / 2) else 0

/-- `_mm256_permutevar8x32_ps` -/
def permutevar8x32 {α : Type} (v : Nat → α) (idx : Nat → Nat) : Nat → α := fun i => v (idx i % 8)

/-! ## Sums over lanes -/

theorem sum_range_two {M : Type} [AddCommMonoid M] (f : Nat → M) : ∑ t ∈ range 2, f t = f 0 + f 1 := by
  rw [sum_range_succ, sum_range_one]

/-- The elements of `m` groups of `n` are those of the whole. -/
theorem sum_groups {M : Type} [AddCommMonoid M] (f : Nat → M) (n : Nat) : ∀ m : Nat,
    ∑ l ∈ range m, ∑ t ∈ range n, f (n * l + t) = ∑ j ∈ range (n * m), f j
  | 0 => by simp
  | m + 1 => by
    rw [sum_range_succ, sum_groups f n m, Nat.mul_succ, sum_range_add]

theorem andSet1_three (v : Nat → Nat) (i : Nat) : andSet1 v 3 i = v i % 4 := Nat.and_two_pow_sub_one_eq_mod (v i) 2

/-- The window of a multishift, where the mask keeps its lower two bits only. -/
theorem multishift_and {ctrl v : Nat → Nat} {i : Nat} (hs : ctrl i % 64 ≤ 62) :
    andSet1 (multishiftEpi64Epi8 ctrl v) 3 i = qwordOf v i / 2 ^ (ctrl i % 64) % 4 := by
  rw [andSet1_three]
  unfold multishiftEpi64Epi8
  generalize qwordOf v i = w
  generalize ctrl i % 64 = s at hs
  have hpow : 2 ^ (64 - s) = 2 ^ 2 * 2 ^ (62 - s) := by
    rw [← pow_add]
    congr 1
    omega
  have hmul : w * 2 ^ (64 - s) = 4 * (w * 2 ^ (62 - s)) := by
    rw [hpow]
    ring
  dsimp only
  rw [hmul]
  omega

/-- Each byte of the shifted words, where the mask cuts off what comes from its neighbour. -/
theorem srliEpi16_and {v : Nat → Nat} (hv : ∀ i, v i < 256) {k : Nat} (hk : k < 4) (i : Nat) :
    andSet1 (srliEpi16 v (2 * k)) 3 i = v i / 4 ^ k % 4 := by
  rw [andSet1_three]
  unfold srliEpi16
  have hlo := hv (2 * (i / 2))
  have hhi := hv (2 * (i / 2) + 1)
  rcases Nat.mod_two_eq_zero_or_one i with hpar | hpar
  · have hi : 2 * (i / 2) = i := by omega
    rw [hpar, hi] at *
    interval_cases k <;> norm_num <;> omega
  · have hi : 2 * (i / 2) + 1 = i := by omega
    rw [hpar, hi] at *
    interval_cases k <;> norm_num <;> omega

/-- The upper half of each byte. -/
theorem srliEpi16_nibble {v : Nat → Nat} (hv : ∀ i, v i < 256) (i : Nat) : andSet1 (srliEpi16 v 4) 15 i = v i / 16 := by
  have hmask : andSet1 (srliEpi16 v 4) 15 i = srliEpi16 v 4 i % 16 := Nat.and_two_pow_sub_one_eq_mod _ 4
  have hlo := hv (2 * (i / 2))
  have hhi := hv (2 * (i / 2) + 1)
  have hself := hv i
  rw [hmask]
  unfold srliEpi16
  rcases Nat.mod_two_eq_zero_or_one i with hpar | hpar
  · have hi : 2 * (i / 2) = i := by omega
    rw [hpar, hi]
    norm_num
    omega
  · have hi : 2 * (i / 2) + 1 = i := by omega
    rw [hpar, hi]
    norm_num
    omega

end BitForge.Lib.Simd
