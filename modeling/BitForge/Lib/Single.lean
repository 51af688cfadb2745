/-
Single precision numbers as bit patterns: their comparison, and the conversion of a natural number
to the nearest one, with ties to even.
-/
import Mathlib.Tactic

namespace BitForge.Lib.Single

/-- The place of a number among the others, as sign and magnitude. A NaN has none; both zeros are at 0. -/
def place (bits : Nat) : Option Int :=
  let magnitude : Nat := bits % 2 ^ 31
  if 0x7f800000 < magnitude then none
  else if bits / 2 ^ 31 % 2 = 1 then some (-(magnitude : Int))
  else some (magnitude : Int)

/-- `a > b`, false when either is a NaN. -/
def gt (a b : Nat) : Bool :=
  match place a, place b with
  | some x, some y => decide (y < x)
  | _, _ => false

/-- `a == b`, false when either is a NaN. -/
def eq (a b : Nat) : Bool :=
  match place a, place b with
  | some x, some y => decide (x = y)
  | _, _ => false

/-- `(float)n`. -/
def ofNat (n : Nat) : Nat :=
  if n = 0 then 0
  else
    let e := Nat.log2 n
    if e ≤ 23 then (e + 127) * 2 ^ 23 + (n * 2 ^ (23 - e) - 2 ^ 23)
    else
      let ulp := 2 ^ (e - 23)
      let q := n / ulp
      let r := n % ulp
      -- the carry of a rounded up significand goes into the exponent
      (e + 127) * 2 ^ 23 + (q - 2 ^ 23) + if ulp < 2 * r ∨ 2 * r = ulp ∧ q % 2 = 1 then 1 else 0

/-- `-x` of a number that is not negative. -/
def neg (bits : Nat) : Nat := bits + 2 ^ 31

theorem place_zero : place 0 = some 0 := by decide

theorem gt_iff {a b : Nat} {x y : Int} (ha : place a = some x) (hb : place b = some y) : gt a b = true ↔ y < x := by
  unfold gt
  rw [ha, hb]
  exact decide_eq_true_iff

/-- The place of a number as a rank. -/
def rank (bits : Nat) : Int := (place bits).getD 0

theorem gt_isSome {a b : Nat} (h : gt a b = true) : (place a).isSome ∧ (place b).isSome := by
  unfold gt at h
  split at h
  · next ha hb => exact ⟨Option.isSome_of_mem ha, Option.isSome_of_mem hb⟩
  · cases h

/-- Numbers are compared by their ranks. -/
theorem gt_iff_rank {a b : Nat} (ha : (place a).isSome) (hb : (place b).isSome) : gt a b = true ↔ rank b < rank a := by
  obtain ⟨x, hx⟩ := Option.isSome_iff_exists.1 ha
  obtain ⟨y, hy⟩ := Option.isSome_iff_exists.1 hb
  unfold rank
  rw [gt_iff hx hy, hx, hy, Option.getD_some, Option.getD_some]

theorem eq_iff_rank {a b : Nat} (ha : (place a).isSome) (hb : (place b).isSome) : eq a b = true ↔ rank a = rank b := by
  obtain ⟨x, hx⟩ := Option.isSome_iff_exists.1 ha
  obtain ⟨y, hy⟩ := Option.isSome_iff_exists.1 hb
  unfold eq rank
  rw [hx, hy]
  exact decide_eq_true_iff

/-- The conversion of a 64-bit natural is finite. -/
theorem ofNat_le {n : Nat} (hn : n < 2 ^ 64) : ofNat n ≤ 0x7f800000 := by
  unfold ofNat
  by_cases hn0 : n = 0
  · rw [if_pos hn0]
    omega
  · have hlog : Nat.log2 n < 64 := (Nat.log2_lt hn0).2 hn
    have hhigh := Nat.lt_log2_self (n := n)
    rw [if_neg hn0]
    dsimp only
    generalize Nat.log2 n = e at *
    split
    · next he =>
      have : n * 2 ^ (23 - e) < 2 ^ 24 := by
        calc n * 2 ^ (23 - e) < 2 ^ (e + 1) * 2 ^ (23 - e) := Nat.mul_lt_mul_of_pos_right hhigh (Nat.two_pow_pos _)
          _ = 2 ^ 24 := by rw [← Nat.pow_add]; congr 1; omega
      omega
    · next he =>
      have : n / 2 ^ (e - 23) < 2 ^ 24 := by
        rw [Nat.div_lt_iff_lt_mul (Nat.two_pow_pos _), ← Nat.pow_add]
        calc n < 2 ^ (e + 1) := hhigh
          _ = 2 ^ (24 + (e - 23)) := by congr 1; omega
      split <;> omega

end BitForge.Lib.Single
