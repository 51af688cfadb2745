/-
Balanced division of `[0, total)` into `n` consecutive chunks, the first `total % n` of them one
longer: the chunk `k` is `[bound k, bound (k + 1))`. Every index lies in exactly one chunk.
-/
import Mathlib.Tactic

namespace BitForge.Lib

/-- The start of the chunk `k`. -/
def bound (total n k : Nat) : Nat := k * (total / n) + min k (total % n)

@[simp] theorem bound_zero (total n : Nat) : bound total n 0 = 0 := by simp [bound]

theorem bound_last {n : Nat} (hn : 0 < n) (total : Nat) : bound total n n = total := by
  unfold bound
  rw [min_eq_right (Nat.mod_lt _ hn).le]
  exact Nat.div_add_mod total n

theorem bound_le_succ (total n k : Nat) : bound total n k ≤ bound total n (k + 1) := by
  unfold bound
  exact Nat.add_le_add (Nat.mul_le_mul_right _ (Nat.le_succ k)) (min_le_min_right _ (Nat.le_succ k))

theorem bound_mono (total n : Nat) : Monotone (bound total n) := monotone_nat_of_le_succ (bound_le_succ total n)

/-- Every index below `bound k` lies in one of the first `k` chunks. -/
theorem exists_chunk (total n : Nat) {x : Nat} :
    ∀ k : Nat, x < bound total n k → ∃ j < k, bound total n j ≤ x ∧ x < bound total n (j + 1)
  | 0, h => by rw [bound_zero] at h; omega
  | k + 1, h => by
    rcases Nat.lt_or_ge x (bound total n k) with hlt | hge
    · obtain ⟨j, hj, hx⟩ := exists_chunk total n k hlt
      exact ⟨j, by omega, hx⟩
    · exact ⟨k, by omega, hge, h⟩

end BitForge.Lib
