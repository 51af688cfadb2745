/-
Rotations of pairs of components. A loop that rotates disjoint pairs of two vectors changes their dot product by a sum
over the pairs in which only the differences of the angles occur.
-/
import Mathlib.Algebra.BigOperators.Ring.Finset
import Mathlib.Data.Finset.Range
import Mathlib.Tactic

namespace BitForge.Lib

open Finset (range sum_range_succ)

variable {K : Type} [Field K]

/-- The laws of the cosine and the sine of a difference. -/
structure IsTrig (cos sin : K → K) : Prop where
  cos_sub : ∀ a b, cos (a - b) = cos a * cos b + sin a * sin b
  sin_sub : ∀ a b, sin (a - b) = sin a * cos b - cos a * sin b

/-- The components `a` and `b` of a vector, rotated by the entries `c` and `s` of a rotation. -/
def rotate (v : Nat → K) (a b : Nat) (c s : K) : Nat → K :=
  Function.update (Function.update v a (v a * c - v b * s)) b (v a * s + v b * c)

/-- The loop over the pairs of the components `fst i` and `snd i`, for `i < n`. -/
def rotatePairs (fst snd : Nat → Nat) (c s : Nat → K) (v : Nat → K) : Nat → Nat → K
  | 0 => v
  | i + 1 => rotate (rotatePairs fst snd c s v i) (fst i) (snd i) (c i) (s i)

/-- The pairs are disjoint and lie below `d`. -/
structure Pairing (fst snd : Nat → Nat) (n d : Nat) : Prop where
  fst_lt : ∀ i < n, fst i < d
  snd_lt : ∀ i < n, snd i < d
  fst_ne_snd : ∀ i < n, ∀ j < n, fst i ≠ snd j
  fst_inj : ∀ i < n, ∀ j < n, fst i = fst j → i = j
  snd_inj : ∀ i < n, ∀ j < n, snd i = snd j → i = j

theorem Pairing.mono {fst snd : Nat → Nat} {n m d : Nat} (h : Pairing fst snd n d) (hm : m ≤ n) : Pairing fst snd m d where
  fst_lt i hi := h.fst_lt i (hi.trans_le hm)
  snd_lt i hi := h.snd_lt i (hi.trans_le hm)
  fst_ne_snd i hi j hj := h.fst_ne_snd i (hi.trans_le hm) j (hj.trans_le hm)
  fst_inj i hi j hj := h.fst_inj i (hi.trans_le hm) j (hj.trans_le hm)
  snd_inj i hi j hj := h.snd_inj i (hi.trans_le hm) j (hj.trans_le hm)

section

variable {fst snd : Nat → Nat} {c s : Nat → K} {v : Nat → K}

/-- A component that is in no pair so far is unchanged. -/
theorem rotatePairs_other {a : Nat} : ∀ n : Nat, (∀ i < n, fst i ≠ a ∧ snd i ≠ a) → rotatePairs fst snd c s v n a = v a
  | 0, _ => rfl
  | n + 1, h => by
    have hlast := h n (Nat.lt_succ_self n)
    unfold rotatePairs rotate
    rw [Function.update_of_ne hlast.2.symm, Function.update_of_ne hlast.1.symm]
    exact rotatePairs_other n fun i hi => h i (Nat.lt_succ_of_lt hi)

/-- The loop on a part of a vector, from the component `off` on. -/
theorem rotatePairs_offset (off j : Nat) : ∀ n : Nat,
    rotatePairs (fun i => off + fst i) (fun i => off + snd i) c s v n (off + j) =
      rotatePairs fst snd c s (fun j => v (off + j)) n j
  | 0 => rfl
  | n + 1 => by
    unfold rotatePairs rotate
    simp only [Function.update_apply, Nat.add_left_cancel_iff, rotatePairs_offset off _ n]

end

/-! ## The dot product -/

/-- The dot product of the first `d` components. -/
def dotProd (q k : Nat → K) (d : Nat) : K := ∑ j ∈ range d, q j * k j

theorem sum_update {f : Nat → K} {a d : Nat} (ha : a < d) (x : K) :
    ∑ j ∈ range d, Function.update f a x j = ∑ j ∈ range d, f j - f a + x := by
  rw [Finset.sum_update_of_mem (Finset.mem_range.2 ha), Finset.sdiff_singleton_eq_erase,
    ← Finset.add_sum_erase _ f (Finset.mem_range.2 ha)]
  ring

/-- A component of each vector is replaced. -/
theorem dot_update {q k : Nat → K} {a d : Nat} (ha : a < d) (x y : K) :
    dotProd (Function.update q a x) (Function.update k a y) d = dotProd q k d - q a * k a + x * y := by
  have hprod : (fun j => Function.update q a x j * Function.update k a y j) =
      Function.update (fun j => q j * k j) a (x * y) := by
    funext j
    rw [Function.update_apply, Function.update_apply, Function.update_apply]
    split <;> rfl
  unfold dotProd
  rw [hprod, sum_update ha]

/-- One pair is rotated in both vectors. -/
theorem dot_rotate {q k : Nat → K} {a b d : Nat} (ha : a < d) (hb : b < d) (hab : a ≠ b) (cq sq ck sk : K) :
    dotProd (rotate q a b cq sq) (rotate k a b ck sk) d = dotProd q k d - (q a * k a + q b * k b) +
      ((q a * k a + q b * k b) * (cq * ck + sq * sk) + (q a * k b - q b * k a) * (sq * ck - cq * sk)) := by
  unfold rotate
  rw [dot_update hb, dot_update ha, Function.update_of_ne hab.symm, Function.update_of_ne hab.symm]
  ring

/-- What the pairs contribute to the dot product, from the entries of the two rotations. -/
def pairSum (fst snd : Nat → Nat) (cq sq ck sk : Nat → K) (q k : Nat → K) (n : Nat) : K :=
  ∑ i ∈ range n, ((q (fst i) * k (fst i) + q (snd i) * k (snd i)) * (cq i * ck i + sq i * sk i - 1) +
    (q (fst i) * k (snd i) - q (snd i) * k (fst i)) * (sq i * ck i - cq i * sk i))

theorem dot_rotatePairs {fst snd : Nat → Nat} {d : Nat} (cq sq ck sk : Nat → K) (q k : Nat → K) : ∀ n : Nat,
    Pairing fst snd n d →
      dotProd (rotatePairs fst snd cq sq q n) (rotatePairs fst snd ck sk k n) d =
        dotProd q k d + pairSum fst snd cq sq ck sk q k n
  | 0, _ => by
    unfold pairSum
    rw [Finset.sum_range_zero, add_zero]
    rfl
  | n + 1, h => by
    have hn := Nat.lt_succ_self n
    have ih := dot_rotatePairs cq sq ck sk q k n (h.mono (Nat.le_succ n))
    -- the pair `n` is not in the pairs before it
    have hfst : ∀ i < n, fst i ≠ fst n ∧ snd i ≠ fst n := fun i hi =>
      ⟨fun heq => (h.fst_inj i (by omega) n hn heq ▸ hi).false, (h.fst_ne_snd n hn i (by omega)).symm⟩
    have hsnd : ∀ i < n, fst i ≠ snd n ∧ snd i ≠ snd n := fun i hi =>
      ⟨h.fst_ne_snd i (by omega) n hn, fun heq => (h.snd_inj i (by omega) n hn heq ▸ hi).false⟩
    unfold rotatePairs
    rw [dot_rotate (h.fst_lt n hn) (h.snd_lt n hn) (h.fst_ne_snd n hn n hn), ih, rotatePairs_other n hfst,
      rotatePairs_other n hfst, rotatePairs_other n hsnd, rotatePairs_other n hsnd]
    unfold pairSum
    rw [sum_range_succ]
    ring

/-- Rotations by angles, scaled by `m i`: the dot product depends on the differences of the angles. -/
theorem dot_rotatePairs_congr {cos sin : K → K} (hT : IsTrig cos sin) {fst snd : Nat → Nat} {n d : Nat}
    (h : Pairing fst snd n d) (m : Nat → K) {a b a' b' : Nat → K} (hdiff : ∀ i < n, a i - b i = a' i - b' i)
    (q k : Nat → K) :
    dotProd (rotatePairs fst snd (fun i => cos (a i) * m i) (fun i => sin (a i) * m i) q n)
        (rotatePairs fst snd (fun i => cos (b i) * m i) (fun i => sin (b i) * m i) k n) d =
      dotProd (rotatePairs fst snd (fun i => cos (a' i) * m i) (fun i => sin (a' i) * m i) q n)
        (rotatePairs fst snd (fun i => cos (b' i) * m i) (fun i => sin (b' i) * m i) k n) d := by
  rw [dot_rotatePairs _ _ _ _ q k n h, dot_rotatePairs _ _ _ _ q k n h]
  congr 1
  unfold pairSum
  refine Finset.sum_congr rfl fun i hi => ?_
  have hd := hdiff i (Finset.mem_range.1 hi)
  have hcos : cos (a i) * m i * (cos (b i) * m i) + sin (a i) * m i * (sin (b i) * m i) =
      cos (a' i) * m i * (cos (b' i) * m i) + sin (a' i) * m i * (sin (b' i) * m i) := by
    have hsub := (hT.cos_sub (a i) (b i)).symm.trans ((congrArg cos hd).trans (hT.cos_sub (a' i) (b' i)))
    linear_combination m i * m i * hsub
  have hsin : sin (a i) * m i * (cos (b i) * m i) - cos (a i) * m i * (sin (b i) * m i) =
      sin (a' i) * m i * (cos (b' i) * m i) - cos (a' i) * m i * (sin (b' i) * m i) := by
    have hsub := (hT.sin_sub (a i) (b i)).symm.trans ((congrArg sin hd).trans (hT.sin_sub (a' i) (b' i)))
    linear_combination m i * m i * hsub
  rw [hcos, hsin]

end BitForge.Lib
