/-
Rounding to an integer, towards zero and to the nearest with ties to even, over any ordered field with a floor.
-/
import Mathlib.Algebra.Order.Floor.Ring
import Mathlib.Tactic

namespace BitForge.Lib.Rounding

section

variable {K : Type} [Field K] [LinearOrder K] [FloorRing K]

/-- Rounding towards zero. -/
def trunc (x : K) : Int := if 0 ≤ x then ⌊x⌋ else ⌈x⌉

/-- Rounding to the nearest integer, and to the even one of two. -/
def roundEven (x : K) : Int :=
  let r := x - ⌊x⌋
  if r < 1 / 2 then ⌊x⌋
  else if 1 / 2 < r then ⌊x⌋ + 1
  else if ⌊x⌋ % 2 = 0 then ⌊x⌋
  else ⌊x⌋ + 1

end

variable {K : Type} [Field K] [LinearOrder K] [IsStrictOrderedRing K] [FloorRing K]

theorem abs_sub_trunc_lt (x : K) : |x - trunc x| < 1 := by
  have hfloor := Int.floor_le x
  have hfloor' := Int.lt_floor_add_one x
  have hceil := Int.le_ceil x
  have hceil' := Int.ceil_lt_add_one x
  unfold trunc
  split
  · rw [abs_lt]
    constructor <;> linarith
  · rw [abs_lt]
    constructor <;> linarith

theorem abs_sub_roundEven_le (x : K) : |x - roundEven x| ≤ 1 / 2 := by
  have hfloor := Int.floor_le x
  have hfloor' := Int.lt_floor_add_one x
  unfold roundEven
  dsimp only
  split_ifs <;> push_cast <;> rw [abs_le] <;> constructor <;> linarith

@[simp] theorem roundEven_intCast (k : Int) : roundEven (k : K) = k := by
  have hhalf : (0 : K) < 1 / 2 := by norm_num
  unfold roundEven
  rw [Int.floor_intCast, sub_self]
  exact if_pos hhalf

/-- A number between two integers is rounded to one between them. -/
theorem trunc_mem {x : K} {a b : Int} (hlo : (a : K) ≤ x) (hhi : x ≤ b) : a ≤ trunc x ∧ trunc x ≤ b := by
  unfold trunc
  split
  · exact ⟨Int.le_floor.2 hlo, by exact_mod_cast (Int.floor_le x).trans hhi⟩
  · exact ⟨by exact_mod_cast hlo.trans (Int.le_ceil x), Int.ceil_le.2 hhi⟩

theorem roundEven_mem {x : K} {a b : Int} (hlo : (a : K) ≤ x) (hhi : x ≤ b) : a ≤ roundEven x ∧ roundEven x ≤ b := by
  have hfloor : a ≤ ⌊x⌋ := Int.le_floor.2 hlo
  have hfloor' : ⌊x⌋ ≤ b := by exact_mod_cast (Int.floor_le x).trans hhi
  -- above the floor there is room for one more
  have habove : ¬ x - ⌊x⌋ < 1 / 2 → ⌊x⌋ + 1 ≤ b := by
    intro hr
    have hlt : (⌊x⌋ : K) < b := by linarith
    exact_mod_cast hlt
  unfold roundEven
  dsimp only
  split_ifs with hr
  · exact ⟨hfloor, hfloor'⟩
  · exact ⟨by omega, habove hr⟩
  · exact ⟨hfloor, hfloor'⟩
  · exact ⟨by omega, habove hr⟩

end BitForge.Lib.Rounding
