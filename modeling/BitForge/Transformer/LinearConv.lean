/-
The causal convolution of the linear attention layers, the conv step of `q35_linear_attn_forward`, with its history of
`conv_k - 1` rows. Arrays are functions of the index.
-/
import Mathlib.Algebra.BigOperators.Intervals
import Mathlib.Tactic

namespace BitForge.Transformer

open Finset

/-! ## The conv step -/

section

variable {R : Type}

/-- `memcpy` of `n` elements to the address `dst`. -/
def copyElems (hist : Nat → R) (dst : Nat) (src : Nat → R) (n : Nat) : Nat → R := fun a =>
  if dst ≤ a ∧ a < dst + n then src (a - dst) else hist a

/-- The rows that are moved down, after a number of rounds. -/
def slideRows (hist : Nat → R) (convDim : Nat) : Nat → Nat → R
  | 0 => hist
  | i + 1 =>
    let h := slideRows hist convDim i
    copyElems h (i * convDim) (fun j => h ((i + 1) * convDim + j)) convDim

/-- The history after the step. -/
def slideHistory (hist qkvMixed : Nat → R) (convK convDim : Nat) : Nat → R :=
  let h := slideRows hist convDim (convK - 2)
  if convK - 1 > 0 then copyElems h ((convK - 2) * convDim) qkvMixed convDim else h

variable [Zero R] [Add R] [Mul R]

/-- `acc` after a number of taps of the history. -/
def tapSum (kc hist : Nat → R) (convDim c : Nat) : Nat → R
  | 0 => 0
  | i + 1 => tapSum kc hist convDim c i + kc i * hist (i * convDim + c)

/-- `acc` before the SiLU. -/
def convAcc (kernel hist qkvMixed : Nat → R) (convK convDim c : Nat) : R :=
  let kc := fun i => kernel (c * convK + i)
  tapSum kc hist convDim c (convK - 1) + kc (convK - 1) * qkvMixed c

/-- `conv_out` and the history after a step. -/
def convStep (silu : R → R) (kernel hist qkvMixed : Nat → R) (convK convDim : Nat) : (Nat → R) × (Nat → R) :=
  (fun c => silu (convAcc kernel hist qkvMixed convK convDim c), slideHistory hist qkvMixed convK convDim)

/-- The history before the step `t` of a run, which starts from zeros. -/
def historyAt (silu : R → R) (kernel : Nat → R) (x : Nat → Nat → R) (convK convDim : Nat) : Nat → Nat → R
  | 0 => fun _ => 0
  | t + 1 => (convStep silu kernel (historyAt silu kernel x convK convDim t) (x t) convK convDim).2

/-- `conv_out` of the step `t`, and `acc` there. -/
def convOutAt (silu : R → R) (kernel : Nat → R) (x : Nat → Nat → R) (convK convDim t : Nat) : Nat → R :=
  (convStep silu kernel (historyAt silu kernel x convK convDim t) (x t) convK convDim).1

def convAccAt (silu : R → R) (kernel : Nat → R) (x : Nat → Nat → R) (convK convDim t : Nat) : Nat → R :=
  convAcc kernel (historyAt silu kernel x convK convDim t) (x t) convK convDim

end

/-! ## The history -/

section

variable {R : Type} {hist : Nat → R} {convDim : Nat}

/-- An element of a row of the history. -/
theorem copyElems_row {h : Nat → R} {src : Nat → R} {i j c : Nat} (hc : c < convDim) :
    copyElems h (j * convDim) src convDim (i * convDim + c) = if i = j then src c else h (i * convDim + c) := by
  unfold copyElems
  rcases Nat.lt_trichotomy i j with hij | rfl | hij
  · have hle : (i + 1) * convDim ≤ j * convDim := Nat.mul_le_mul_right _ hij
    rw [Nat.succ_mul] at hle
    rw [if_neg (by omega), if_neg (by omega)]
  · rw [if_pos (by omega), if_pos rfl, Nat.add_sub_cancel_left]
  · have hle : (j + 1) * convDim ≤ i * convDim := Nat.mul_le_mul_right _ hij
    rw [Nat.succ_mul] at hle
    rw [if_neg (by omega), if_neg (by omega)]

/-- The rows below are those above them, the others are as before. -/
theorem slideRows_row (hist : Nat → R) {c : Nat} (hc : c < convDim) : ∀ n i : Nat,
    slideRows hist convDim n (i * convDim + c) = if i < n then hist ((i + 1) * convDim + c) else hist (i * convDim + c)
  | 0, i => by
    rw [if_neg (Nat.not_lt_zero i)]
    rfl
  | n + 1, i => by
    have habove := (slideRows_row hist hc n (n + 1)).trans (if_neg (by omega))
    unfold slideRows
    rw [copyElems_row hc, habove, slideRows_row hist hc n i]
    rcases Nat.lt_trichotomy i n with hin | rfl | hin
    · rw [if_neg (by omega), if_pos hin, if_pos (by omega)]
    · rw [if_pos rfl, if_pos (Nat.lt_succ_self i)]
    · rw [if_neg (by omega), if_neg (by omega), if_neg (by omega)]

theorem slideHistory_row {x : Nat → R} {convK c i : Nat} (hk : 2 ≤ convK) (hc : c < convDim) (hi : i < convK - 1) :
    slideHistory hist x convK convDim (i * convDim + c) =
      if i = convK - 2 then x c else hist ((i + 1) * convDim + c) := by
  unfold slideHistory
  rw [if_pos (by omega), copyElems_row hc, slideRows_row hist hc]
  by_cases hlast : i = convK - 2
  · rw [if_pos hlast, if_pos hlast]
  · rw [if_neg hlast, if_neg hlast, if_pos (by omega)]

end

section

variable {R : Type} [Zero R] [Add R] [Mul R] {silu : R → R} {kernel : Nat → R} {x : Nat → Nat → R} {convK convDim : Nat}

/-- The input `i` steps before the step `t`, zero before the first. -/
def pastInput (x : Nat → Nat → R) (t i c : Nat) : R := if i ≤ t then x (t - i) c else 0

/-- The rolling window: before the step `t` the row `j` is the input `convK - 1 - j` steps before it. -/
theorem historyAt_row (hk : 2 ≤ convK) {c : Nat} (hc : c < convDim) : ∀ (t : Nat) {j : Nat}, j < convK - 1 →
    historyAt silu kernel x convK convDim t (j * convDim + c) = pastInput x t (convK - 1 - j) c
  | 0, j, hj => by
    unfold pastInput
    rw [if_neg (by omega)]
    rfl
  | t + 1, j, hj => by
    unfold historyAt convStep pastInput
    dsimp only
    rw [slideHistory_row hk hc hj]
    by_cases hlast : j = convK - 2
    · rw [if_pos hlast, if_pos (by omega), show t + 1 - (convK - 1 - j) = t by omega]
    · rw [if_neg hlast, historyAt_row hk hc t (by omega)]
      unfold pastInput
      rw [show t - (convK - 1 - (j + 1)) = t + 1 - (convK - 1 - j) by omega]
      exact if_congr (by omega) rfl rfl

/-- The taps in the order of the loop. -/
theorem tapSum_eq (kc hist : Nat → R) (convDim c : Nat) : ∀ n : Nat,
    tapSum kc hist convDim c n = (List.range n).foldl (fun acc i => acc + kc i * hist (i * convDim + c)) 0
  | 0 => rfl
  | n + 1 => by
    unfold tapSum
    rw [tapSum_eq kc hist convDim c n, List.range_succ, List.foldl_append]
    rfl

/-- Whatever the arithmetic: the convolution adds its products from the oldest input to the newest. -/
theorem convAccAt_foldl (hk : 2 ≤ convK) {c : Nat} (hc : c < convDim) (t : Nat) :
    convAccAt silu kernel x convK convDim t c =
      (List.range convK).foldl (fun acc i => acc + kernel (c * convK + i) * pastInput x t (convK - 1 - i) c) 0 := by
  obtain ⟨k, rfl⟩ : ∃ k, convK = k + 1 := ⟨convK - 1, by omega⟩
  have hnow : pastInput x t (k - k) c = x t c := by
    unfold pastInput
    rw [Nat.sub_self, if_pos (Nat.zero_le t), Nat.sub_zero]
  unfold convAccAt convAcc
  dsimp only
  rw [Nat.add_sub_cancel, tapSum_eq, List.range_succ, List.foldl_append, List.foldl_cons, List.foldl_nil, hnow]
  congr 1
  refine List.foldl_ext _ _ _ fun acc i hi => ?_
  have hlt := List.mem_range.1 hi
  rw [historyAt_row hk hc t (by omega), Nat.add_sub_cancel]

end

/-! ## The sum -/

section

variable {R : Type} [Semiring R] {silu : R → R} {kernel : Nat → R} {x : Nat → Nat → R} {convK convDim : Nat}

theorem foldl_range_eq_sum (f : Nat → R) : ∀ n : Nat, (List.range n).foldl (fun acc i => acc + f i) 0 = ∑ i ∈ range n, f i
  | 0 => rfl
  | n + 1 => by
    rw [List.range_succ, List.foldl_append, foldl_range_eq_sum f n, sum_range_succ]
    rfl

theorem convAccAt_eq (hk : 2 ≤ convK) {c : Nat} (hc : c < convDim) (t : Nat) :
    convAccAt silu kernel x convK convDim t c =
      ∑ i ∈ range convK, kernel (c * convK + (convK - 1 - i)) * pastInput x t i c := by
  rw [convAccAt_foldl hk hc, foldl_range_eq_sum, ← sum_range_reflect]
  refine sum_congr rfl fun i hi => ?_
  have hlt := mem_range.1 hi
  rw [show convK - 1 - (convK - 1 - i) = i by omega]

/-- Fed one input a step, the convolution is that of the whole sequence, and the history is the last inputs. -/
theorem convStep_eq (silu : R → R) (kernel : Nat → R) (x : Nat → Nat → R) {convK convDim : Nat} (hk : 2 ≤ convK) (t : Nat) {c : Nat}
    (hc : c < convDim) :
    convOutAt silu kernel x convK convDim t c =
        silu (∑ i ∈ range convK, kernel (c * convK + (convK - 1 - i)) * pastInput x t i c) ∧
      convAccAt silu kernel x convK convDim t c =
        ∑ i ∈ range convK, kernel (c * convK + (convK - 1 - i)) * pastInput x t i c ∧
      ∀ j < convK - 1, historyAt silu kernel x convK convDim (t + 1) (j * convDim + c) = pastInput x t (convK - 2 - j) c := by
  have hacc : convAccAt silu kernel x convK convDim t c =
      ∑ i ∈ range convK, kernel (c * convK + (convK - 1 - i)) * pastInput x t i c := convAccAt_eq hk hc t
  refine ⟨congrArg silu hacc, hacc, fun j hj => ?_⟩
  rw [historyAt_row hk hc (t + 1) hj]
  unfold pastInput
  rw [show t + 1 - (convK - 1 - j) = t - (convK - 2 - j) by omega]
  exact if_congr (by omega) rfl rfl

end

theorem convStep_eq_four : convAccAt (fun a : Int => a) (fun i => (i : Int) + 1) (fun t c => 10 * t + c) 4 3 2 1 =
    ∑ i ∈ range 4, (((1 * 4 + (4 - 1 - i) : Nat) : Int) + 1) * pastInput (fun t c => 10 * (t : Int) + c) 2 i 1 :=
  (convStep_eq (fun a : Int => a) (fun i => (i : Int) + 1) (fun t c => 10 * t + c) (by decide : 2 ≤ 4) 2
    (by decide : 1 < 3)).2.1

end BitForge.Transformer
