/-
Counting the components of a finite family that satisfy a decidable property, and how an update
of one component changes the count.
-/
import Mathlib.Data.Fintype.Card
import Mathlib.Tactic

namespace BitForge.Lib

variable {w : Nat} {α : Type} (p : α → Bool) (f : Fin w → α)

/-- How many components of `f` satisfy `p`. -/
def tally : Nat := (Finset.univ.filter fun i => p (f i)).card

theorem tally_eq_zero : tally p f = 0 ↔ ∀ i, p (f i) = false := by
  unfold tally
  rw [Finset.card_eq_zero, Finset.filter_eq_empty_iff]
  simp

theorem tally_eq_all : tally p f = w ↔ ∀ i, p (f i) = true := by
  constructor
  · intro h i
    have huniv : (Finset.univ.filter fun i => p (f i) = true) = Finset.univ :=
      (Finset.card_eq_iff_eq_univ _).1 (h.trans (Fintype.card_fin w).symm)
    have hi : i ∈ Finset.univ.filter fun i => p (f i) = true := by rw [huniv]; exact Finset.mem_univ i
    exact (Finset.mem_filter.1 hi).2
  · intro h
    unfold tally
    rw [Finset.filter_true_of_mem fun i _ => h i, Finset.card_univ, Fintype.card_fin]

theorem tally_le : tally p f ≤ w := by
  have h := Finset.card_filter_le Finset.univ fun i => (p (f i) : Prop)
  rwa [Finset.card_univ, Fintype.card_fin] at h

theorem tally_lt {i : Fin w} (h : p (f i) = false) : tally p f < w :=
  lt_of_le_of_ne (tally_le p f) fun he => by
    rw [(tally_eq_all p f).1 he i] at h; cases h

variable {p f}

theorem tally_update_same {i : Fin w} {a : α} (h : p a = p (f i)) : tally p (Function.update f i a) = tally p f := by
  unfold tally
  congr 1
  apply Finset.filter_congr
  intro j _
  by_cases hj : j = i
  · subst hj; rw [Function.update_self, h]
  · rw [Function.update_of_ne hj]

theorem tally_update_add {i : Fin w} {a : α} (h : p (f i) = false) (ha : p a = true) :
    tally p (Function.update f i a) = tally p f + 1 := by
  have hins : (Finset.univ.filter fun j => p (Function.update f i a j)) =
      insert i (Finset.univ.filter fun j => p (f j)) := by
    ext j
    rw [Finset.mem_insert, Finset.mem_filter, Finset.mem_filter]
    by_cases hj : j = i
    · subst hj; simp [Function.update_self, ha]
    · simp [hj]
  unfold tally
  rw [hins, Finset.card_insert_of_notMem (by simp [h])]

theorem tally_update_sub {i : Fin w} {a : α} (h : p (f i) = true) (ha : p a = false) :
    tally p f = tally p (Function.update f i a) + 1 := by
  have hback : f = Function.update (Function.update f i a) i (f i) := by
    rw [Function.update_idem, Function.update_eq_self]
  have hself : p (Function.update f i a i) = false := by rw [Function.update_self, ha]
  calc tally p f = tally p (Function.update (Function.update f i a) i (f i)) := by rw [← hback]
    _ = tally p (Function.update f i a) + 1 := tally_update_add hself h

end BitForge.Lib
