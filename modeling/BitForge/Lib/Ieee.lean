/-
The numbers that the bits of a binary floating-point format stand for, with `E` bits of exponent and `M` of mantissa.
Infinities and NaNs are no numbers; their bits are not looked at.
-/
import Mathlib.Tactic

namespace BitForge.Lib.Ieee

def exponent (E M bits : Nat) : Nat := bits / 2 ^ M % 2 ^ E

def mantissa (M bits : Nat) : Nat := bits % 2 ^ M

def signOf (E M bits : Nat) : ℚ := if bits / 2 ^ (E + M) % 2 = 1 then -1 else 1

/-- The value of the bits, subnormal or normal. -/
def value (E M bits : Nat) : ℚ :=
  let bias : Int := 2 ^ (E - 1) - 1
  if exponent E M bits = 0 then signOf E M bits * mantissa M bits * 2 ^ (1 - bias - M)
  else signOf E M bits * (2 ^ M + mantissa M bits) * 2 ^ (exponent E M bits - bias - M)

/-- A zero of either sign, or a normal number. -/
def IsZeroOrNormal (E M bits : Nat) : Prop :=
  exponent E M bits < 2 ^ E - 1 ∧ (exponent E M bits = 0 → mantissa M bits = 0)

instance (E M bits : Nat) : Decidable (IsZeroOrNormal E M bits) := by
  unfold IsZeroOrNormal; infer_instance

end BitForge.Lib.Ieee
