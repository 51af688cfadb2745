/-
The integer kernels over rows of packed ternary weights, in their inner loops: `ternary_matmul_packed_vnni`,
`ternary_matmul_packed_vnni_preq`, `ternary_matmul_packed_vnni256`, `ternary_matmul_packed_avx_vnni` and
`ternary_matmul_packed_dotprod`. They go through a row in vector steps of their own width, with a scalar tail.
-/
import BitForge.Kernel.Quantize
import BitForge.Pool.Machine

namespace BitForge.PackedTernary

open Finset BitForge.Lib BitForge.Lib.Simd BitForge.Q2Vnni BitForge.Quantize

/-! ## The rows -/

/-- The 2-bit code of a weight. -/
def wEnc (row : Nat → Nat) (j : Nat) : Nat := (row (j >>> 2) >>> ((j &&& 3) <<< 1)) &&& 3

/-- `unpack_ternary` -/
def unpackTernary (packed : Nat → Nat) (index : Nat) : Int := (wEnc packed index : Int) - 1

/-- `packed_bytes` -/
def packedBytes (n : Nat) : Nat := (n + 3) >>> 2

/-! ## Vector steps -/

/-- `unpack8_to_wenc_u8` -/
def unpack8ToWencU8 (p : Nat → Nat) : Nat → Nat :=
  let bits := p 0 + 256 * p 1
  let v := fun l : Nat => (((bits >>> (2 * l)) &&& 3 : Nat) : Int)
  let i16 := packsEpi32 v fun l => v (4 + l)
  fun l => (packsEpi16 i16 (fun _ => 0) l % 256).toNat

/-- The 32 codes of a step, in four groups of eight. -/
def wenc32 (p : Nat → Nat) : Nat → Nat := fun i => unpack8ToWencU8 (fun t => p (2 * (i / 8) + t)) (i % 8)

/-- `unpack16_to_i8` -/
def unpack16ToI8 (p : Nat → Nat) : Nat → Int :=
  let bits := p 0 + 256 * p 1 + 65536 * p 2 + 16777216 * p 3
  fun k => wrap 8 ((((bits >>> (k * 2)) &&& 3 : Nat) : Int) - 1)

/-- `vdotq_s32` -/
def vdotqS32 (acc a b : Nat → Int) : Nat → Int := fun l => wrap 32 (acc l + ∑ t ∈ range 4, a (4 * l + t) * b (4 * l + t))

/-- The horizontal sum of 8 lanes. -/
def hsum8 (acc : Nat → Int) : Int :=
  let sum4 := fun l => wrap 32 (acc l + acc (4 + l))
  let sum2 := fun l => wrap 32 (sum4 (2 * l) + sum4 (2 * l + 1))
  wrap 32 (sum2 0 + sum2 1)

/-- `vaddvq_s32` -/
def vaddvqS32 (acc : Nat → Int) : Int := wrap 32 (∑ l ∈ range 4, acc l)

/-- What the kernels differ in: the width of a step, the step on the packed bytes and the activations, the loads it makes of
the bytes, the horizontal sum, whether the weights are codes, to be corrected by a sum of the activations, and this sum. -/
structure RowKernel where
  width : Nat
  step : (Nat → Int) → (Nat → Nat) → (Nat → Int) → Nat → Int
  stepLoads : List (Nat × Nat)
  reduce : (Nat → Int) → Int
  biased : Bool
  sumQx : (Nat → Int) → Nat → Int

/-- `ternary_matmul_packed_vnni` -/
def ternaryMatmulPackedVnni (vbmi : Bool) : RowKernel where
  width := 64
  step acc p q := dpbusds acc (unpack64 vbmi p) q
  stepLoads := [(0, 16)]
  reduce := reduceAddEpi32
  biased := true
  sumQx := sumI8Avx512 true

/-- `ternary_matmul_packed_vnni_preq`: the dispatcher makes the same sum. -/
def ternaryMatmulPackedVnniPreq (vbmi : Bool) : RowKernel := ternaryMatmulPackedVnni vbmi

/-- `ternary_matmul_packed_vnni256` -/
def ternaryMatmulPackedVnni256 : RowKernel where
  width := 32
  step acc p q := dpbusds acc (wenc32 p) q
  stepLoads := [(0, 2), (2, 2), (4, 2), (6, 2)]
  reduce := hsum8
  biased := true
  sumQx := sumI8

/-- `ternary_matmul_packed_avx_vnni` has the same loops. -/
def ternaryMatmulPackedAvxVnni : RowKernel := ternaryMatmulPackedVnni256

/-- `ternary_matmul_packed_dotprod` -/
def ternaryMatmulPackedDotprod : RowKernel where
  width := 16
  step acc p q := vdotqS32 acc (unpack16ToI8 p) q
  stepLoads := [(0, 4)]
  reduce := vaddvqS32
  biased := false
  sumQx _ _ := 0

/-- The kernels, with either way to unpack. -/
def kernels (vbmi : Bool) : List RowKernel :=
  [ternaryMatmulPackedVnni vbmi, ternaryMatmulPackedVnniPreq vbmi, ternaryMatmulPackedVnni256, ternaryMatmulPackedAvxVnni,
    ternaryMatmulPackedDotprod]

namespace RowKernel

variable (k : RowKernel)

/-- The weight that a code has in the sums. -/
def weight (c : Nat) : Int := if k.biased then c else c - 1

/-- The accumulators after a number of steps, from the element `gs` on. -/
def acc (row : Nat → Nat) (q : Nat → Int) (gs : Nat) : Nat → Nat → Int
  | 0 => fun _ => 0
  | c + 1 => k.step (acc row q gs c) (fun i => row ((gs + k.width * c) / 4 + i)) fun i => q (gs + k.width * c + i)

/-- The dot product of the elements `gs` to `ge` of a row. -/
def rowDot (row : Nat → Nat) (q : Nat → Int) (sumQx : Int) (gs ge : Nat) : Int :=
  let c := (ge - gs) / k.width
  let j := gs + k.width * c
  let result := sumLoop (fun j => k.weight (wEnc row j) * q j) (k.reduce (k.acc row q gs c)) j (ge - j)
  if k.biased then wrap 32 (result - sumQx) else result

/-- The loads of packed bytes, as addresses in the row with their lengths. -/
def loads (gs ge : Nat) : List (Nat × Nat) :=
  let c := (ge - gs) / k.width
  let j := gs + k.width * c
  (List.range c).flatMap (fun p => k.stepLoads.map fun ld => ((gs + k.width * p) / 4 + ld.1, ld.2)) ++
    (List.range (ge - j)).map fun t => ((j + t) / 4, 1)

/-- The integers of the rows of a slice, per matrix. -/
def task (w : Nat → UInt8) (q : Nat → Int) (n start stop : Nat) : List (Nat × Int) :=
  (List.range (stop - start)).map fun i =>
    (start + i, k.rowDot (fun t => (w (start * packedBytes n + (i * packedBytes n + t))).toNat) q (k.sumQx q n) 0 n)

/-- The slices that `threadpool_dispatch` makes of the rows. -/
def dispatch (w : Nat → UInt8) (q : Nat → Int) (n d nthreads : Nat) : List (Nat × Int) :=
  (List.range nthreads).flatMap fun idx =>
    let slice := Pool.sliceRange d nthreads idx
    if slice.1 < d then k.task w q n slice.1 slice.2 else []

end RowKernel

/-! ## The codes -/

theorem and_three (x : Nat) : x &&& 3 = x % 4 := Nat.and_two_pow_sub_one_eq_mod x 2

theorem wEnc_eq (row : Nat → Nat) (j : Nat) : wEnc row j = code row j := by
  have hpow : 2 ^ (j % 4 * 2 ^ 1) = 4 ^ (j % 4) := by
    rw [show (4 : Nat) = 2 ^ 2 from rfl, ← Nat.pow_mul, Nat.mul_comm, pow_one]
  unfold wEnc code
  rw [and_three, and_three, Nat.shiftRight_eq_div_pow, Nat.shiftRight_eq_div_pow, Nat.shiftLeft_eq, hpow]

/-- The codes from a byte on. -/
theorem code_from (p : Nat → Nat) {a : Nat} (ha : a % 4 = 0) (j : Nat) : code (fun i => p (a / 4 + i)) j = code p (a + j) := by
  have hdiv : (a + j) / 4 = a / 4 + j / 4 := by omega
  have hmod : (a + j) % 4 = j % 4 := by omega
  unfold code
  rw [hdiv, hmod]

section

variable {p : Nat → Nat}

/-- The lanes of the shifted words of two and of four bytes. -/
theorem twoBytes_lane (hp : ∀ i, p i < 256) {l : Nat} (hl : l < 8) : ((p 0 + 256 * p 1) >>> (2 * l)) &&& 3 = code p l := by
  have h0 := hp 0
  have h1 := hp 1
  rw [and_three, Nat.shiftRight_eq_div_pow]
  unfold code
  interval_cases l <;> norm_num <;> omega

theorem fourBytes_lane (hp : ∀ i, p i < 256) {l : Nat} (hl : l < 16) :
    ((p 0 + 256 * p 1 + 65536 * p 2 + 16777216 * p 3) >>> (2 * l)) &&& 3 = code p l := by
  have h0 := hp 0
  have h1 := hp 1
  have h2 := hp 2
  have h3 := hp 3
  rw [and_three, Nat.shiftRight_eq_div_pow]
  unfold code
  interval_cases l <;> norm_num <;> omega

theorem unpack8_eq (hp : ∀ i, p i < 256) {l : Nat} (hl : l < 8) : unpack8ToWencU8 p l = code p l := by
  have hcode : ∀ l < 8, -127 ≤ ((code p l : Nat) : Int) ∧ ((code p l : Nat) : Int) ≤ 127 := fun l _ => by
    have hlt := code_lt p l
    constructor <;> omega
  have hpacked : packsEpi32 (fun l => ((((p 0 + 256 * p 1) >>> (2 * l)) &&& 3 : Nat) : Int))
      (fun l => ((((p 0 + 256 * p 1) >>> (2 * (4 + l))) &&& 3 : Nat) : Int)) l = (code p l : Int) :=
    packsEpi32_eq (c := fun l => (code p l : Int)) (fun i hi => by rw [twoBytes_lane hp (by omega)])
      (fun i hi => by rw [twoBytes_lane hp (by omega)]) hcode hl
  have hrange := hcode l hl
  unfold unpack8ToWencU8 packsEpi16
  dsimp only
  rw [if_pos hl, hpacked, saturate_eq (by omega) (by omega)]
  omega

theorem wenc32_eq (hp : ∀ i, p i < 256) (i : Nat) : wenc32 p i = code p i := by
  have hdiv : 8 * (i / 8) / 4 = 2 * (i / 8) := by omega
  have hfrom := code_from p (a := 8 * (i / 8)) (by omega) (i % 8)
  rw [hdiv, Nat.div_add_mod] at hfrom
  unfold wenc32
  rw [unpack8_eq (fun _ => hp _) (Nat.mod_lt _ (by decide)), hfrom]

theorem unpack16_eq (hp : ∀ i, p i < 256) {k : Nat} (hk : k < 16) : unpack16ToI8 p k = (code p k : Int) - 1 := by
  have hlt := code_lt p k
  unfold unpack16ToI8
  rw [Nat.mul_comm k 2, fourBytes_lane hp hk, wrap_eq (by omega) (by omega)]

end

/-! ## What a step does -/

/-- A kernel whose steps add to each lane the products of four weights, as long as it is small, and whose horizontal sum is
that of the lanes in 32 bits. -/
structure RowKernel.Lawful (k : RowKernel) : Prop where
  width_pos : 0 < k.width
  width_mod : k.width % 4 = 0
  stepLoads : ∀ ld ∈ k.stepLoads, ld.1 + ld.2 ≤ k.width / 4
  step : ∀ {acc : Nat → Int} {p : Nat → Nat} {q : Nat → Int} {l : Nat}, (∀ i, p i < 256) → l < k.width / 4 →
    (∀ t < 4, -127 ≤ q (4 * l + t) ∧ q (4 * l + t) ≤ 127) → -2 ^ 30 ≤ acc l ∧ acc l ≤ 2 ^ 30 →
      k.step acc p q l = acc l + ∑ t ∈ range 4, k.weight (code p (4 * l + t)) * q (4 * l + t)
  reduce : ∀ v : Nat → Int, k.reduce v = wrap 32 (∑ l ∈ range (k.width / 4), v l)
  sumQx : ∀ {q : Nat → Int} {n : Nat}, n ≤ 16384 → (∀ i, -127 ≤ q i ∧ q i ≤ 127) → k.biased = true →
    k.sumQx q n = ∑ i ∈ range n, q i

/-- The step of the kernels of x86. -/
theorem dpbusds_codes {acc : Nat → Int} {u p : Nat → Nat} {q : Nat → Int} {l : Nat} (hu : ∀ t < 4, u (4 * l + t) = code p (4 * l + t))
    (hq : ∀ t < 4, -127 ≤ q (4 * l + t) ∧ q (4 * l + t) ≤ 127) (hacc : -2 ^ 30 ≤ acc l ∧ acc l ≤ 2 ^ 30) :
    dpbusds acc u q l = acc l + ∑ t ∈ range 4, (code p (4 * l + t) : Int) * q (4 * l + t) := by
  rw [dpbusds_eq hacc le_rfl fun t ht => by rw [hu t ht]; exact code_mul_bounds p _ (hq t ht)]
  congr 1
  exact sum_congr rfl fun t ht => by rw [hu t (mem_range.1 ht)]

/-- A sum over some small lanes. -/
theorem sum_lanes {v : Nat → Int} {m : Nat} {B : Int} (hv : ∀ l < m, -B ≤ v l ∧ v l ≤ B) :
    -(m * B) ≤ ∑ l ∈ range m, v l ∧ ∑ l ∈ range m, v l ≤ m * B := by
  have hlo : (range m).card • -B ≤ ∑ l ∈ range m, v l := card_nsmul_le_sum _ _ _ fun l hl => (hv l (mem_range.1 hl)).1
  have hhi : ∑ l ∈ range m, v l ≤ (range m).card • B := sum_le_card_nsmul _ _ _ fun l hl => (hv l (mem_range.1 hl)).2
  rw [card_range, nsmul_eq_mul] at hlo hhi
  rw [mul_neg] at hlo
  exact ⟨hlo, hhi⟩

theorem int8_of_code {q : Nat → Int} (hq : ∀ i, -127 ≤ q i ∧ q i ≤ 127) (i : Nat) : -128 ≤ q i ∧ q i ≤ 127 :=
  ⟨by have hi := hq i; omega, (hq i).2⟩

theorem lawful_vnni (vbmi : Bool) : (ternaryMatmulPackedVnni vbmi).Lawful := by
  have hwidth : (ternaryMatmulPackedVnni vbmi).width = 64 := rfl
  have hlanes : (ternaryMatmulPackedVnni vbmi).width / 4 = 16 := by rw [hwidth]
  constructor
  · rw [hwidth]
    decide
  · rw [hwidth]
  · intro ld hld
    obtain rfl := List.mem_singleton.1 hld
    exact hlanes.ge
  · intro acc p q l hp hl hq hacc
    rw [hlanes] at hl
    exact dpbusds_codes (fun t ht => unpack64_eq vbmi hp (by omega)) hq hacc
  · intro v
    rw [hlanes]
    rfl
  · intro q n hn hq _
    exact sumI8Avx512_eq (int8_of_code hq) true (by omega)

theorem lawful_vnni256 : ternaryMatmulPackedVnni256.Lawful where
  width_pos := by decide
  width_mod := by decide
  stepLoads := by decide
  step {acc p q l} hp _ hq hacc := dpbusds_codes (fun t _ => wenc32_eq hp _) hq hacc
  reduce v := by
    show wrap 32 (wrap 32 (wrap 32 (v 0 + v (4 + 0)) + wrap 32 (v 1 + v (4 + 1))) +
      wrap 32 (wrap 32 (v 2 + v (4 + 2)) + wrap 32 (v 3 + v (4 + 3)))) = wrap 32 (∑ l ∈ range 8, v l)
    simp only [wrap_add_left, wrap_add_right, Nat.reduceAdd, sum_range_succ, sum_range_zero]
    congr 1
    ring
  sumQx hn hq _ := (sumI8_eq (int8_of_code hq) (by omega)).1

theorem lawful_dotprod : ternaryMatmulPackedDotprod.Lawful where
  width_pos := by decide
  width_mod := by decide
  stepLoads := by decide
  step {acc p q l} hp hl hq hacc := by
    have hlt : l < 4 := hl
    have hlane : ∀ t ∈ range 4, unpack16ToI8 p (4 * l + t) * q (4 * l + t) = ((code p (4 * l + t) : Int) - 1) * q (4 * l + t) :=
      fun t ht => by rw [unpack16_eq hp (by have ht4 := mem_range.1 ht; omega)]
    have hprod : ∀ t < 4, -508 ≤ ((code p (4 * l + t) : Int) - 1) * q (4 * l + t) ∧
        ((code p (4 * l + t) : Int) - 1) * q (4 * l + t) ≤ 508 := fun t ht => by
      have hbound := code_mul_bounds p (4 * l + t) (hq t ht)
      have hqt := hq t ht
      rw [sub_one_mul]
      constructor <;> omega
    have hsum := @sum_lanes (fun t => ((code p (4 * l + t) : Int) - 1) * q (4 * l + t)) 4 508 hprod
    show wrap 32 (acc l + ∑ t ∈ range 4, unpack16ToI8 p (4 * l + t) * q (4 * l + t)) = _
    rw [sum_congr rfl hlane]
    exact wrap_eq (by push_cast at hsum; omega) (by push_cast at hsum; omega)
  reduce _ := rfl
  sumQx _ _ hb := absurd hb (by decide)

theorem lawful_of_mem {vbmi : Bool} {k : RowKernel} (hk : k ∈ kernels vbmi) : k.Lawful := by
  unfold kernels at hk
  simp only [List.mem_cons, List.not_mem_nil, or_false] at hk
  rcases hk with rfl | rfl | rfl | rfl | rfl
  · exact lawful_vnni vbmi
  · exact lawful_vnni vbmi
  · exact lawful_vnni256
  · exact lawful_vnni256
  · exact lawful_dotprod

/-! ## A row -/

section

variable {k : RowKernel} {row : Nat → Nat} {q : Nat → Int}

/-- The product of an element in the sums of a kernel. -/
def RowKernel.product (k : RowKernel) (row : Nat → Nat) (q : Nat → Int) (j : Nat) : Int := k.weight (code row j) * q j

theorem product_bounds (k : RowKernel) (row : Nat → Nat) (hq : ∀ i, -127 ≤ q i ∧ q i ≤ 127) (j : Nat) :
    -508 ≤ k.product row q j ∧ k.product row q j ≤ 508 := by
  have hbound := code_mul_bounds row j (hq j)
  have hqj := hq j
  unfold RowKernel.product RowKernel.weight
  split
  · constructor <;> omega
  · rw [sub_one_mul]
    constructor <;> omega

/-- A lane adds up its four products of every step. -/
theorem acc_eq (hk : k.Lawful) (hrow : ∀ i, row i < 256) (hq : ∀ i, -127 ≤ q i ∧ q i ≤ 127) {gs : Nat} (hgs : gs % 4 = 0)
    {l : Nat} (hl : l < k.width / 4) (c : Nat) (hc : c ≤ 528416) :
    k.acc row q gs c l = ∑ p ∈ range c, ∑ t ∈ range 4, k.product row q (gs + (k.width * p + (4 * l + t))) ∧
      -(2032 * c : Int) ≤ k.acc row q gs c l ∧ k.acc row q gs c l ≤ 2032 * c := by
  induction c with
  | zero => simp [RowKernel.acc]
  | succ c ih =>
    obtain ⟨heq, hlo, hhi⟩ := ih (by omega)
    have hwidth := hk.width_mod
    have hstart : (gs + k.width * c) % 4 = 0 := by
      rw [Nat.add_mod, hgs, Nat.mul_mod, hwidth]
      simp
    have hstep := hk.step (p := fun i => row ((gs + k.width * c) / 4 + i)) (q := fun i => q (gs + k.width * c + i))
      (fun _ => hrow _) hl (fun _ _ => hq _) (show -2 ^ 30 ≤ k.acc row q gs c l ∧ k.acc row q gs c l ≤ 2 ^ 30 by constructor <;> omega)
    have hterm : ∀ t ∈ range 4, k.weight (code (fun i => row ((gs + k.width * c) / 4 + i)) (4 * l + t)) *
        q (gs + k.width * c + (4 * l + t)) = k.product row q (gs + (k.width * c + (4 * l + t))) := fun t _ => by
      rw [code_from row hstart, Nat.add_assoc]
      rfl
    have hsum := @sum_lanes (fun t => k.product row q (gs + (k.width * c + (4 * l + t)))) 4 508 fun t _ => product_bounds k row hq _
    have hnext : k.acc row q gs (c + 1) l =
        k.acc row q gs c l + ∑ t ∈ range 4, k.product row q (gs + (k.width * c + (4 * l + t))) := by
      rw [← sum_congr rfl hterm]
      exact hstep
    rw [sum_range_succ, hnext, heq]
    rw [heq] at hlo hhi
    push_cast at hsum ⊢
    refine ⟨rfl, ?_, ?_⟩ <;> omega

/-- All lanes together. -/
theorem reduce_acc (hk : k.Lawful) (hrow : ∀ i, row i < 256) (hq : ∀ i, -127 ≤ q i ∧ q i ≤ 127) {gs c : Nat} (hgs : gs % 4 = 0)
    (hc : c ≤ 528416) : k.reduce (k.acc row q gs c) = wrap 32 (∑ j ∈ range (k.width * c), k.product row q (gs + j)) := by
  have hwidth : 4 * (k.width / 4) = k.width := Nat.mul_div_cancel' (Nat.dvd_of_mod_eq_zero hk.width_mod)
  rw [hk.reduce]
  congr 1
  calc ∑ l ∈ range (k.width / 4), k.acc row q gs c l
      = ∑ l ∈ range (k.width / 4), ∑ p ∈ range c, ∑ t ∈ range 4, k.product row q (gs + (k.width * p + (4 * l + t))) :=
        sum_congr rfl fun l hl => (acc_eq hk hrow hq hgs (mem_range.1 hl) c hc).1
    _ = ∑ p ∈ range c, ∑ l ∈ range (k.width / 4), ∑ t ∈ range 4, k.product row q (gs + (k.width * p + (4 * l + t))) := sum_comm
    _ = ∑ p ∈ range c, ∑ j ∈ range k.width, k.product row q (gs + (k.width * p + j)) :=
        sum_congr rfl fun p _ => by
          rw [sum_groups (fun j => k.product row q (gs + (k.width * p + j))) 4 (k.width / 4), hwidth]
    _ = ∑ j ∈ range (k.width * c), k.product row q (gs + j) := sum_groups (fun j => k.product row q (gs + j)) k.width c

theorem sumLoop_wrap (arr : Nat → Int) (total : Int) (i : Nat) : ∀ t : Nat,
    sumLoop arr (wrap 32 total) i t = wrap 32 (total + ∑ s ∈ range t, arr (i + s))
  | 0 => by simp [sumLoop]
  | t + 1 => by
    unfold sumLoop
    rw [sumLoop_wrap arr total i t, wrap_add_left, sum_range_succ, add_assoc]

theorem unpackTernary_mul (row : Nat → Nat) (q : Nat → Int) (j : Nat) :
    unpackTernary row j * q j = if k.biased then k.product row q j - q j else k.product row q j := by
  unfold unpackTernary RowKernel.product RowKernel.weight
  rw [wEnc_eq]
  split
  · exact sub_one_mul _ _
  · rfl

/-- The loops over the elements `gs` to `ge` give their dot product in 32 bits, where they start with a byte or make no vector
step. -/
theorem rowDot_wrap (hk : k.Lawful) (hrow : ∀ i, row i < 256) (hq : ∀ i, -127 ≤ q i ∧ q i ≤ 127) {gs ge : Nat}
    (halign : gs % 4 = 0 ∨ ge - gs < k.width) (hlen : (ge - gs) / k.width ≤ 528416) {sumQx : Int}
    (hsumQx : k.biased = true → wrap 32 sumQx = wrap 32 (∑ t ∈ range (ge - gs), q (gs + t))) :
    k.rowDot row q sumQx gs ge = wrap 32 (∑ t ∈ range (ge - gs), unpackTernary row (gs + t) * q (gs + t)) := by
  have hdiv := Nat.mul_div_le (ge - gs) k.width
  have hproduct : (fun j => k.weight (wEnc row j) * q j) = k.product row q := by
    funext j
    rw [wEnc_eq]
    rfl
  have hvector : k.reduce (k.acc row q gs ((ge - gs) / k.width)) =
      wrap 32 (∑ j ∈ range (k.width * ((ge - gs) / k.width)), k.product row q (gs + j)) := by
    rcases halign with hgs | hshort
    · exact reduce_acc hk hrow hq hgs hlen
    · rw [Nat.div_eq_of_lt hshort, hk.reduce]
      simp [RowKernel.acc]
  -- the vector steps and the tail make the sum of all products
  have htotal : sumLoop (fun j => k.weight (wEnc row j) * q j) (k.reduce (k.acc row q gs ((ge - gs) / k.width)))
      (gs + k.width * ((ge - gs) / k.width)) (ge - (gs + k.width * ((ge - gs) / k.width))) =
        wrap 32 (∑ t ∈ range (ge - gs), k.product row q (gs + t)) := by
    have htail : ge - gs = k.width * ((ge - gs) / k.width) + (ge - (gs + k.width * ((ge - gs) / k.width))) := by omega
    rw [hproduct, hvector, sumLoop_wrap]
    conv_rhs => rw [htail, sum_range_add]
    simp only [Nat.add_assoc]
  unfold RowKernel.rowDot
  dsimp only
  rw [htotal]
  simp only [unpackTernary_mul (k := k)]
  split
  · next hbiased => rw [wrap_sub_left, ← wrap_sub_right, hsumQx hbiased, wrap_sub_right, sum_sub_distrib]
  · rfl

/-- A dot product over some elements. -/
theorem dot_bounds (row : Nat → Nat) (hq : ∀ i, -127 ≤ q i ∧ q i ≤ 127) (gs m : Nat) :
    -(m * 254) ≤ ∑ t ∈ range m, unpackTernary row (gs + t) * q (gs + t) ∧
      ∑ t ∈ range m, unpackTernary row (gs + t) * q (gs + t) ≤ m * 254 := by
  refine sum_lanes fun t _ => ?_
  have hlt := code_lt row (gs + t)
  have hqt := hq (gs + t)
  unfold unpackTernary
  rw [wEnc_eq]
  interval_cases hc : code row (gs + t) <;> push_cast <;> constructor <;> omega

theorem rowDot_eq (hk : k.Lawful) (hrow : ∀ i, row i < 256) (hq : ∀ i, -127 ≤ q i ∧ q i ≤ 127) {n : Nat} (hn : n ≤ 16384)
    {sumQx : Int} (hsumQx : k.biased = true → sumQx = ∑ t ∈ range n, q t) :
    k.rowDot row q sumQx 0 n = ∑ t ∈ range n, unpackTernary row t * q t := by
  have hsteps : (n - 0) / k.width ≤ n := Nat.div_le_self _ _
  have hwrap := @rowDot_wrap k row q hk hrow hq 0 n (Or.inl rfl) (by omega) sumQx
    fun hb => by simp only [hsumQx hb, Nat.sub_zero, Nat.zero_add]
  have hbound := dot_bounds row hq 0 n
  simp only [Nat.sub_zero, Nat.zero_add] at hwrap hbound
  rw [hwrap]
  exact wrap_eq (by omega) (by omega)

/-- No load leaves the bytes of a row of `n` weights. -/
theorem loads_bound (hk : k.Lawful) (n : Nat) : ∀ ld ∈ k.loads 0 n, ld.1 + ld.2 ≤ packedBytes n := by
  have hbytes : packedBytes n = (n + 3) / 4 := Nat.shiftRight_eq_div_pow _ _
  have hwidth := hk.width_mod
  intro ld hld
  rw [hbytes]
  rcases List.mem_append.1 hld with hld | hld
  · obtain ⟨p, hp, hld⟩ := List.mem_flatMap.1 hld
    obtain ⟨st, hst, rfl⟩ := List.mem_map.1 hld
    have hload := hk.stepLoads st hst
    have hmul : k.width * (p + 1) ≤ k.width * ((n - 0) / k.width) := Nat.mul_le_mul_left _ (List.mem_range.1 hp)
    have hdiv := Nat.mul_div_le (n - 0) k.width
    rw [Nat.mul_succ] at hmul
    dsimp only
    omega
  · obtain ⟨t, ht, rfl⟩ := List.mem_map.1 hld
    have hlt := List.mem_range.1 ht
    dsimp only
    omega

/-- Sums of some of the products, in whatever order they are made, are 32-bit numbers. -/
theorem partial_products (k : RowKernel) (row : Nat → Nat) (hq : ∀ i, -127 ≤ q i ∧ q i ≤ 127) {n : Nat} (hn : n ≤ 16384)
    {s : Finset Nat} (hs : s ⊆ range n) : -2 ^ 31 ≤ ∑ j ∈ s, k.product row q j ∧ ∑ j ∈ s, k.product row q j < 2 ^ 31 := by
  have hcard : s.card ≤ n := by simpa using card_le_card hs
  have hlo : s.card • (-508 : Int) ≤ ∑ j ∈ s, k.product row q j := card_nsmul_le_sum s _ _ fun j _ => (product_bounds k row hq j).1
  have hhi : ∑ j ∈ s, k.product row q j ≤ s.card • (508 : Int) := sum_le_card_nsmul s _ _ fun j _ => (product_bounds k row hq j).2
  rw [nsmul_eq_mul] at hlo hhi
  constructor <;> omega

end

/-! ## All rows -/

/-- The bytes of a row of the packed matrix. -/
def rowOf (w : Nat → UInt8) (n i : Nat) : Nat → Nat := fun t => (w (i * packedBytes n + t)).toNat

/-- The ternary dot product of a row. -/
def ternaryDot (w : Nat → UInt8) (q : Nat → Int) (n i : Nat) : Int := ∑ j ∈ range n, unpackTernary (rowOf w n i) j * q j

section

variable {k : RowKernel} {w : Nat → UInt8} {q : Nat → Int} {n : Nat}

theorem task_eq (hk : k.Lawful) (hq : ∀ i, -127 ≤ q i ∧ q i ≤ 127) (hn : n ≤ 16384) (start stop : Nat) :
    k.task w q n start stop = (List.range (stop - start)).map fun i => (start + i, ternaryDot w q n (start + i)) := by
  refine List.map_congr_left fun i _ => ?_
  have hrow : (fun t => (w (start * packedBytes n + (i * packedBytes n + t))).toNat) = rowOf w n (start + i) := by
    funext t
    unfold rowOf
    rw [Nat.add_mul, Nat.add_assoc]
  have hdot := @rowDot_eq k (rowOf w n (start + i)) q hk (fun _ => UInt8.toNat_lt _) hq n hn (k.sumQx q n) (hk.sumQx hn hq)
  rw [hrow, hdot]
  rfl

/-- Consecutive chunks make up the range. -/
theorem chunks_flatMap {β : Type} (f : Nat → β) (total m : Nat) : ∀ c : Nat,
    (List.range c).flatMap (fun idx => (List.range (bound total m (idx + 1) - bound total m idx)).map
      fun i => f (bound total m idx + i)) = (List.range (bound total m c)).map f
  | 0 => by simp
  | c + 1 => by
    have hle := bound_le_succ total m c
    have hsplit : bound total m (c + 1) = bound total m c + (bound total m (c + 1) - bound total m c) := by omega
    rw [List.range_succ, List.flatMap_append, chunks_flatMap f total m c]
    conv_rhs => rw [hsplit, List.range_add, List.map_append, List.map_map]
    simp

theorem dispatch_eq (hk : k.Lawful) (hq : ∀ i, -127 ≤ q i ∧ q i ≤ 127) (hn : n ≤ 16384) (d : Nat) {nthreads : Nat}
    (hthreads : 0 < nthreads) : k.dispatch w q n d nthreads = (List.range d).map fun i => (i, ternaryDot w q n i) := by
  have hchunks := chunks_flatMap (fun i => (i, ternaryDot w q n i)) d nthreads nthreads
  rw [bound_last hthreads] at hchunks
  rw [← hchunks]
  refine List.flatMap_congr fun idx hidx => ?_
  have hend : bound d nthreads (idx + 1) ≤ d := by
    have hmono := bound_mono d nthreads (show idx + 1 ≤ nthreads from List.mem_range.1 hidx)
    rwa [bound_last hthreads] at hmono
  rw [Pool.sliceRange_eq]
  dsimp only
  split
  · exact task_eq hk hq hn _ _
  · next hempty =>
    -- a slice that is not called has no rows
    have hzero : bound d nthreads (idx + 1) - bound d nthreads idx = 0 := by omega
    rw [hzero]
    rfl

/-- Each of the kernels, on the slices for any number of threads, gives every row its ternary dot product, without overflow
and within the bytes of the row. -/
theorem packed_kernels_exact {vbmi : Bool} (hk : k ∈ kernels vbmi) (hq : ∀ i, -127 ≤ q i ∧ q i ≤ 127) (hn : n ≤ 16384) (d : Nat)
    {nthreads : Nat} (hthreads : 0 < nthreads) :
    k.dispatch w q n d nthreads = (List.range d).map (fun i => (i, ternaryDot w q n i)) ∧
      (∀ ld ∈ k.loads 0 n, ld.1 + ld.2 ≤ packedBytes n) ∧
      ∀ i, ∀ s ⊆ range n, -2 ^ 31 ≤ ∑ j ∈ s, k.product (rowOf w n i) q j ∧ ∑ j ∈ s, k.product (rowOf w n i) q j < 2 ^ 31 :=
  have hlawful := lawful_of_mem hk
  ⟨dispatch_eq hlawful hq hn d hthreads, loads_bound hlawful n, fun i _ hs => partial_products k (rowOf w n i) hq hn hs⟩

end

theorem packed_kernels_exact_70_weights :
    (ternaryMatmulPackedVnni true).dispatch (fun t => UInt8.ofNat (t % 3 * 85)) (fun i => (i : Int) % 11 - 5) 70 5 2 =
      (List.range 5).map fun i => (i, ternaryDot (fun t => UInt8.ofNat (t % 3 * 85)) (fun i => (i : Int) % 11 - 5) 70 i) :=
  (packed_kernels_exact (show ternaryMatmulPackedVnni true ∈ kernels true from List.mem_cons_self) (fun _ => ⟨by omega, by omega⟩) (by decide) 5 (by decide)).1

end BitForge.PackedTernary
