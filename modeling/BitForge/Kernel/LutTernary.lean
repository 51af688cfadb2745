/-
The lookup-table kernel of `ternary_matmul_lut_avx512bw.c`: five ternary weights packed to a byte in balanced ternary, four
tables of 32 values for each group of five activations, 16-bit accumulators that are flushed every 51 groups, and a scalar
tail. Columns and rows stand for the addresses of the row-major arrays; additions of 32 bits wrap.
-/
import BitForge.Lib.Simd

namespace BitForge.LutTernary

open Finset BitForge.Lib.Simd

/-! ## Packing -/

/-- `COEFF0` to `COEFF4` -/
def coeff (i : Nat) : Int := [81, 27, 9, 3, 1].getD i 0

/-- The byte of `lut_pack_weights` for the group `g` of the column `n`. -/
def lutPackWeights (W : Nat → Nat → Int) (K g n : Nat) : Int :=
  wrap 8 (∑ i ∈ range 5, (if 5 * g + i < K then W (5 * g + i) n else 0) * coeff i)

/-! ## The tables -/

/-- `g_d0` to `g_d4`, the balanced digits of an index. -/
def d0 (t : Nat) : Int := (t / 9 : Nat) - 1
def d1 (t : Nat) : Int := (t / 3 % 3 : Nat) - 1
def d2 (t : Nat) : Int := (t % 3 : Nat) - 1
def d3 (t : Nat) : Int := (t / 3 : Nat) - 1
def d4 (t : Nat) : Int := (t % 3 : Nat) - 1

/-- `hv_arr` -/
def hvArr (a : Nat → Int) (s : Nat) : Int := if s < 27 then wrap 16 (a 0 * d0 s + a 1 * d1 s + a 2 * d2 s) else 0

/-- `lv_arr` -/
def lvArr (a : Nat → Int) (s : Nat) : Int := if s < 9 then wrap 16 (a 3 * d3 s + a 4 * d4 s) else 0

/-- `build_tables`: the lane `t` of `T[k]`. A permutation looks at five bits of its index. -/
def buildTables (a : Nat → Int) (k t : Nat) : Int :=
  let absV := 121 + 32 * k + t
  wrap 16 (hvArr a (absV / 9 % 32) + lvArr a (absV % 9 % 32))

/-- `_mm512_permutex2var_epi16`: bit 5 of the index selects the table. -/
def permutex2var (a : Nat → Int) (idx : Int) (b : Nat → Int) : Int :=
  if (idx / 32) % 2 = 1 then b (idx % 32).toNat else a (idx % 32).toNat

/-- What `lookup_and_acc` finds for a packed weight. -/
def lookup (T : Nat → Nat → Int) (v : Int) : Int :=
  let idx16 : Int := v.natAbs
  let r01 := permutex2var (T 0) idx16 (T 1)
  let idxHi := wrap 16 (idx16 - 64)
  let r23 := permutex2var (T 2) idxHi (T 3)
  let rr := if idx16 ≥ 64 then r23 else r01
  if v < 0 then wrap 16 (0 - rr) else rr

/-! ## The loops -/

/-- The workspace and the row of the output. -/
structure RowState where
  acc16 : Nat → Int
  flushCnt : Nat → Nat
  cRow : Nat → Int

/-- The sign-extended accumulators of a block, the lower and the upper half. -/
def acc16ToAcc32 (acc16 c : Nat → Int) : Nat → Int := fun lane =>
  let lo16 := fun i => acc16 i
  let hi16 := fun i => acc16 (16 + i)
  wrap 32 (c lane + if lane < 16 then lo16 lane else hi16 (lane - 16))

/-- A block of 32 columns overwritten by lanes. -/
def storeBlock {α : Type} (v : Nat → α) (bn : Nat) (lanes : Nat → α) : Nat → α := fun col =>
  if col / 32 = bn then lanes (col % 32) else v col

/-- `FLUSH_EVERY` -/
def flushEvery : Nat := 51

section

variable (a : Nat → Int) (P : Nat → Nat → Int)

/-- The block `bn` in the pass over the group `g`. -/
def blockStep (g : Nat) (s : RowState) (bn : Nat) : RowState :=
  let T := buildTables fun i => a (5 * g + i)
  let acc16 := fun lane => wrap 16 (s.acc16 (32 * bn + lane) + lookup T (P g (32 * bn + lane)))
  let cnt := s.flushCnt bn + 1
  if cnt = flushEvery then
    { acc16 := storeBlock s.acc16 bn fun _ => 0
      flushCnt := fun b => if b = bn then 0 else s.flushCnt b
      cRow := storeBlock s.cRow bn (acc16ToAcc32 acc16 fun lane => s.cRow (32 * bn + lane)) }
  else
    { acc16 := storeBlock s.acc16 bn acc16
      flushCnt := fun b => if b = bn then cnt else s.flushCnt b
      cRow := s.cRow }

/-- The inner loop, up to the block `n`. -/
def blockLoop (g : Nat) (s : RowState) : Nat → RowState
  | 0 => s
  | n + 1 => blockStep a P g (blockLoop g s n) n

/-- The outer loop, up to the group `g`. -/
def groupLoop (nBlocks : Nat) : Nat → RowState
  | 0 => ⟨fun _ => 0, fun _ => 0, fun _ => 0⟩
  | g + 1 => blockLoop a P g (groupLoop nBlocks g) nBlocks

/-- The final flush of a column. -/
def finalFlush (s : RowState) (col : Nat) : Int :=
  if s.flushCnt (col / 32) > 0 then
    acc16ToAcc32 (fun lane => s.acc16 (32 * (col / 32) + lane)) (fun lane => s.cRow (32 * (col / 32) + lane)) (col % 32)
  else s.cRow col

/-- The product of a group with a packed weight, in the scalar tail. -/
def tailDot (g col : Nat) : Int :=
  let v := P g col
  let sign : Int := if v < 0 then -1 else 1
  let av := v.natAbs
  let u := av + 121
  let hvIdx := u / 9
  let lvIdx := u % 9
  let hvVal := wrap 16 (a (5 * g) * d0 hvIdx + a (5 * g + 1) * d1 hvIdx + a (5 * g + 2) * d2 hvIdx)
  let lvVal := wrap 16 (a (5 * g + 3) * d3 lvIdx + a (5 * g + 4) * d4 lvIdx)
  (hvVal + lvVal) * sign

/-- A tail column after `g` groups. -/
def tailColumn (col : Nat) : Nat → Int
  | 0 => 0
  | g + 1 => wrap 32 (tailColumn col g + tailDot a P g col)

/-- `process_row` -/
def processRow (K5 N col : Nat) : Int :=
  let nFull := 32 * (N / 32)
  let nBlocks := nFull / 32
  if col < nFull then finalFlush (groupLoop a P nBlocks K5) col else tailColumn a P col K5

end

/-- `lut_mm_avx512bw` over the contents `C` of the output; where an allocation of the workspace fails, it returns. -/
def lutMm (accWs flushWs : Bool) (A P : Nat → Nat → Int) (M K N : Nat) (C : Nat → Nat → Int) : Nat → Nat → Int :=
  if !accWs || !flushWs then C
  else fun m n => if m < M ∧ n < N then processRow (A m) P (K / 5) N n else C m n

/-! ## The digits -/

/-- The value of five digits. -/
def digitValue (w : Nat → Int) : Int := 81 * w 0 + 27 * w 1 + 9 * w 2 + 3 * w 3 + w 4

def Ternary (w : Nat → Int) : Prop := ∀ i, -1 ≤ w i ∧ w i ≤ 1

def dot5 (a w : Nat → Int) : Int := a 0 * w 0 + a 1 * w 1 + a 2 * w 2 + a 3 * w 3 + a 4 * w 4

/-- The digits of a number that is not negative are found in the tables, 121 behind it. -/
theorem digits_of_value {w : Nat → Int} (hw : Ternary w) {n : Nat} (hn : (n : Int) = digitValue w) :
    (d0 ((121 + n) / 9) = w 0 ∧ d1 ((121 + n) / 9) = w 1 ∧ d2 ((121 + n) / 9) = w 2) ∧
      d3 ((121 + n) % 9) = w 3 ∧ d4 ((121 + n) % 9) = w 4 := by
  have h0 := hw 0
  have h1 := hw 1
  have h2 := hw 2
  have h3 := hw 3
  have h4 := hw 4
  unfold digitValue at hn
  unfold d0 d1 d2 d3 d4
  refine ⟨⟨?_, ?_, ?_⟩, ?_, ?_⟩ <;> omega

theorem digitValue_bounds {w : Nat → Int} (hw : Ternary w) : -121 ≤ digitValue w ∧ digitValue w ≤ 121 := by
  have h0 := hw 0
  have h1 := hw 1
  have h2 := hw 2
  have h3 := hw 3
  have h4 := hw 4
  unfold digitValue
  constructor <;> omega

theorem ternary_neg {w : Nat → Int} (hw : Ternary w) : Ternary fun i => -w i := fun i => by
  obtain ⟨hlo, hhi⟩ := hw i
  exact ⟨neg_le_neg hhi, by dsimp only; omega⟩

theorem digitValue_neg (w : Nat → Int) : digitValue (fun i => -w i) = -digitValue w := by
  unfold digitValue
  ring

theorem dot5_neg (a w : Nat → Int) : dot5 a (fun i => -w i) = -dot5 a w := by
  unfold dot5
  ring

/-- The values of an `int8_t`. -/
def IsInt8 (a : Nat → Int) : Prop := ∀ i, -128 ≤ a i ∧ a i ≤ 127

theorem mul_digit_bounds {x d : Int} (hx : -128 ≤ x ∧ x ≤ 127) (hd : -1 ≤ d ∧ d ≤ 1) : -128 ≤ x * d ∧ x * d ≤ 128 := by
  obtain ⟨hlo, hhi⟩ := hd
  interval_cases d <;> constructor <;> omega

theorem dot5_bounds {a w : Nat → Int} (ha : IsInt8 a) (hw : Ternary w) : -640 ≤ dot5 a w ∧ dot5 a w ≤ 640 := by
  have h0 := mul_digit_bounds (ha 0) (hw 0)
  have h1 := mul_digit_bounds (ha 1) (hw 1)
  have h2 := mul_digit_bounds (ha 2) (hw 2)
  have h3 := mul_digit_bounds (ha 3) (hw 3)
  have h4 := mul_digit_bounds (ha 4) (hw 4)
  unfold dot5
  constructor <;> omega

/-! ## One lookup -/

/-- The five weights of a group in the column `n`; behind the last row they are 0. -/
def groupWeights (W : Nat → Nat → Int) (K n g i : Nat) : Int := if 5 * g + i < K then W (5 * g + i) n else 0

theorem groupWeights_ternary {W : Nat → Nat → Int} (hW : ∀ k n, -1 ≤ W k n ∧ W k n ≤ 1) (K n g : Nat) :
    Ternary (groupWeights W K n g) := fun i => by
  unfold groupWeights
  split
  · exact hW _ _
  · decide

/-- The byte of a group is the value of its digits. -/
theorem lutPackWeights_eq {W : Nat → Nat → Int} (hW : ∀ k n, -1 ≤ W k n ∧ W k n ≤ 1) (K g n : Nat) :
    lutPackWeights W K g n = digitValue (groupWeights W K n g) := by
  have hsum : ∑ i ∈ range 5, groupWeights W K n g i * coeff i = digitValue (groupWeights W K n g) := by
    simp only [sum_range_succ, range_zero, sum_empty, digitValue, coeff, List.getD_cons_zero, List.getD_cons_succ]
    ring
  obtain ⟨hlo, hhi⟩ := digitValue_bounds (groupWeights_ternary hW K n g)
  have hpack : lutPackWeights W K g n = wrap 8 (∑ i ∈ range 5, groupWeights W K n g i * coeff i) := rfl
  rw [hpack, hsum]
  exact wrap_eq (by omega) (by omega)

/-- The entry of the tables for a value that is not negative. -/
theorem buildTables_eq {a w : Nat → Int} (ha : IsInt8 a) (hw : Ternary w) {n : Nat} (hn : (n : Int) = digitValue w) :
    buildTables a (n / 32) (n % 32) = dot5 a w := by
  have hle := (digitValue_bounds hw).2
  obtain ⟨⟨e0, e1, e2⟩, e3, e4⟩ := digits_of_value hw hn
  have h0 := mul_digit_bounds (ha 0) (hw 0)
  have h1 := mul_digit_bounds (ha 1) (hw 1)
  have h2 := mul_digit_bounds (ha 2) (hw 2)
  have h3 := mul_digit_bounds (ha 3) (hw 3)
  have h4 := mul_digit_bounds (ha 4) (hw 4)
  have habs : 121 + 32 * (n / 32) + n % 32 = 121 + n := by omega
  have hhigh : (121 + n) / 9 % 32 = (121 + n) / 9 := by omega
  have hlow : (121 + n) % 9 % 32 = (121 + n) % 9 := by omega
  have hhv : hvArr a ((121 + n) / 9) = a 0 * w 0 + a 1 * w 1 + a 2 * w 2 := by
    unfold hvArr
    rw [if_pos (by omega), e0, e1, e2]
    exact wrap_eq (by omega) (by omega)
  have hlv : lvArr a ((121 + n) % 9) = a 3 * w 3 + a 4 * w 4 := by
    unfold lvArr
    rw [if_pos (by omega), e3, e4]
    exact wrap_eq (by omega) (by omega)
  have hwrap := wrap_eq (w := 15) (x := dot5 a w) (by unfold dot5; omega) (by unfold dot5; omega)
  unfold buildTables
  dsimp only
  rw [habs, hhigh, hlow, hhv, hlv, ← hwrap]
  unfold dot5
  congr 1
  ring

/-- The four tables behind the two permutations and the blend. -/
theorem select_eq (T : Nat → Nat → Int) {n : Nat} (hn : n ≤ 121) :
    (if (n : Int) ≥ 64 then permutex2var (T 2) (wrap 16 ((n : Int) - 64)) (T 3) else permutex2var (T 0) n (T 1)) =
      T (n / 32) (n % 32) := by
  by_cases hhigh : (n : Int) ≥ 64
  · have hidx : wrap 16 ((n : Int) - 64) = (n : Int) - 64 := wrap_eq (by omega) (by omega)
    have hmod : (((n : Int) - 64) % 32).toNat = n % 32 := by omega
    unfold permutex2var
    rw [if_pos hhigh, hidx, hmod]
    split
    · have hk : n / 32 = 3 := by omega
      rw [hk]
    · have hk : n / 32 = 2 := by omega
      rw [hk]
  · have hmod : ((n : Int) % 32).toNat = n % 32 := by omega
    unfold permutex2var
    rw [if_neg hhigh, hmod]
    split
    · have hk : n / 32 = 1 := by omega
      rw [hk]
    · have hk : n / 32 = 0 := by omega
      rw [hk]

/-- A negative weight is looked up by its magnitude, whose digits are the negated ones. -/
theorem lookup_eq {a w : Nat → Int} (ha : IsInt8 a) (hw : Ternary w) : lookup (buildTables a) (digitValue w) = dot5 a w := by
  obtain ⟨hlo, hhi⟩ := digitValue_bounds hw
  unfold lookup
  dsimp only
  rw [select_eq _ (by omega)]
  split
  · next hneg =>
    have habs : ((digitValue w).natAbs : Int) = digitValue fun i => -w i := by
      rw [digitValue_neg]
      omega
    have hbound := dot5_bounds ha hw
    rw [buildTables_eq ha (ternary_neg hw) habs, dot5_neg, zero_sub, neg_neg]
    exact wrap_eq (by omega) (by omega)
  · next hpos => exact buildTables_eq ha hw (by omega)

/-- The scalar tail decodes the same value. -/
theorem tailDot_eq {a : Nat → Int} {P : Nat → Nat → Int} (ha : IsInt8 a) {w : Nat → Int} (hw : Ternary w) {g col : Nat}
    (hP : P g col = digitValue w) : tailDot a P g col = dot5 (fun i => a (5 * g + i)) w := by
  obtain ⟨hlo, hhi⟩ := digitValue_bounds hw
  -- the digits of the magnitude
  have hdigits : ∀ x : Nat → Int, Ternary x → ((P g col).natAbs : Int) = digitValue x →
      wrap 16 (a (5 * g) * d0 (((P g col).natAbs + 121) / 9) + a (5 * g + 1) * d1 (((P g col).natAbs + 121) / 9) +
          a (5 * g + 2) * d2 (((P g col).natAbs + 121) / 9)) +
        wrap 16 (a (5 * g + 3) * d3 (((P g col).natAbs + 121) % 9) + a (5 * g + 4) * d4 (((P g col).natAbs + 121) % 9)) =
        dot5 (fun i => a (5 * g + i)) x := by
    intro x hx hn
    obtain ⟨⟨e0, e1, e2⟩, e3, e4⟩ := digits_of_value hx hn
    have h0 := mul_digit_bounds (ha (5 * g)) (hx 0)
    have h1 := mul_digit_bounds (ha (5 * g + 1)) (hx 1)
    have h2 := mul_digit_bounds (ha (5 * g + 2)) (hx 2)
    have h3 := mul_digit_bounds (ha (5 * g + 3)) (hx 3)
    have h4 := mul_digit_bounds (ha (5 * g + 4)) (hx 4)
    rw [Nat.add_comm _ 121, e0, e1, e2, e3, e4, wrap_eq (by omega) (by omega), wrap_eq (by omega) (by omega)]
    unfold dot5
    dsimp only [Nat.add_zero]
    ring
  unfold tailDot
  dsimp only
  split
  · next hneg =>
    have habs : ((P g col).natAbs : Int) = digitValue fun i => -w i := by
      rw [digitValue_neg, ← hP]
      omega
    rw [hdigits _ (ternary_neg hw) habs, dot5_neg]
    ring
  · next hpos => rw [hdigits w hw (by omega), mul_one]

/-! ## One column of the loops -/

/-- What the loops hold for a column: its accumulator, the counter of its block and its output. -/
def RowState.view (s : RowState) (col : Nat) : Int × Nat × Int := (s.acc16 col, s.flushCnt (col / 32), s.cRow col)

/-- A group in one column. -/
def columnStep (x : Int) (v : Int × Nat × Int) : Int × Nat × Int :=
  if v.2.1 + 1 = flushEvery then (0, 0, wrap 32 (v.2.2 + wrap 16 (v.1 + x))) else (wrap 16 (v.1 + x), v.2.1 + 1, v.2.2)

theorem acc16ToAcc32_eq (acc16 c : Nat → Int) (lane : Nat) : acc16ToAcc32 acc16 c lane = wrap 32 (c lane + acc16 lane) := by
  unfold acc16ToAcc32
  dsimp only
  split
  · rfl
  · next hge => rw [Nat.add_sub_cancel' (Nat.le_of_not_lt hge)]

section

variable (a : Nat → Int) (P : Nat → Nat → Int)

/-- A block step touches the columns of its block only. -/
theorem blockStep_view (g : Nat) (s : RowState) (bn col : Nat) :
    (blockStep a P g s bn).view col =
      if col / 32 = bn then columnStep (lookup (buildTables fun i => a (5 * g + i)) (P g col)) (s.view col) else s.view col := by
  unfold blockStep columnStep RowState.view
  by_cases hcol : col / 32 = bn
  · have hlane : 32 * bn + col % 32 = col := by omega
    rw [if_pos hcol]
    dsimp only
    rw [hcol]
    split
    · simp only [storeBlock, hcol, if_true, acc16ToAcc32_eq, hlane]
    · simp only [storeBlock, hcol, if_true, hlane]
  · rw [if_neg hcol]
    dsimp only
    split
    · simp only [storeBlock, hcol, if_false]
    · simp only [storeBlock, hcol, if_false]

theorem blockLoop_view (g : Nat) (s : RowState) (col : Nat) : ∀ n : Nat,
    (blockLoop a P g s n).view col =
      if col / 32 < n then columnStep (lookup (buildTables fun i => a (5 * g + i)) (P g col)) (s.view col) else s.view col
  | 0 => rfl
  | n + 1 => by
    simp only [blockLoop, blockStep_view, blockLoop_view g s col n]
    by_cases hcol : col / 32 = n
    · rw [if_pos hcol, if_neg (by omega), if_pos (by omega)]
    · by_cases hlt : col / 32 < n
      · rw [if_neg hcol, if_pos hlt, if_pos (by omega)]
      · rw [if_neg hcol, if_neg hlt, if_neg (by omega)]

end

/-- Sums of terms of at most 640. -/
theorem partial_bounds {x : Nat → Int} (hx : ∀ g, -640 ≤ x g ∧ x g ≤ 640) (g : Nat) : ∀ k : Nat,
    -(640 * k : Int) ≤ ∑ i ∈ range (g + k), x i - ∑ i ∈ range g, x i ∧
      ∑ i ∈ range (g + k), x i - ∑ i ∈ range g, x i ≤ 640 * k
  | 0 => by simp
  | k + 1 => by
    obtain ⟨hlo, hhi⟩ := partial_bounds hx g k
    obtain ⟨hl, hh⟩ := hx (g + k)
    rw [← Nat.add_assoc, sum_range_succ]
    push_cast
    constructor
    · linarith
    · linarith

/-- The accumulator holds the sum since the last flush, exactly; the output holds the rest. -/
theorem columnStep_eq {x : Nat → Int} (hx : ∀ g, -640 ≤ x g ∧ x g ≤ 640) (g : Nat) :
    columnStep (x g) (∑ i ∈ range g, x i - ∑ i ∈ range (51 * (g / 51)), x i, g % 51,
        wrap 32 (∑ i ∈ range (51 * (g / 51)), x i)) =
      (∑ i ∈ range (g + 1), x i - ∑ i ∈ range (51 * ((g + 1) / 51)), x i, (g + 1) % 51,
        wrap 32 (∑ i ∈ range (51 * ((g + 1) / 51)), x i)) := by
  have hbound := partial_bounds hx (51 * (g / 51)) (g % 51 + 1)
  have hsplit : 51 * (g / 51) + (g % 51 + 1) = g + 1 := by omega
  rw [hsplit, sum_range_succ] at hbound
  have hwrap : wrap 16 (∑ i ∈ range g, x i - ∑ i ∈ range (51 * (g / 51)), x i + x g) =
      ∑ i ∈ range (g + 1), x i - ∑ i ∈ range (51 * (g / 51)), x i := by
    rw [sum_range_succ, wrap_eq (by omega) (by omega)]
    ring
  unfold columnStep flushEvery
  dsimp only
  rw [hwrap]
  split
  · next hflush =>
    have hdiv : 51 * ((g + 1) / 51) = g + 1 := by omega
    have hmod : (g + 1) % 51 = 0 := by omega
    rw [hdiv, hmod, wrap_add_left, sub_self, add_sub_cancel]
  · next hkeep =>
    have hdiv : (g + 1) / 51 = g / 51 := by omega
    have hmod : (g + 1) % 51 = g % 51 + 1 := by omega
    rw [hdiv, hmod]

section

variable {a : Nat → Int} {P : Nat → Nat → Int} {x : Nat → Int}

/-- A column after `g` groups, where `x` are its lookups. -/
theorem groupLoop_view (hx : ∀ g, -640 ≤ x g ∧ x g ≤ 640) {col nBlocks : Nat} (hcol : col / 32 < nBlocks)
    (hlookup : ∀ g, lookup (buildTables fun i => a (5 * g + i)) (P g col) = x g) : ∀ g : Nat,
    (groupLoop a P nBlocks g).view col =
      (∑ i ∈ range g, x i - ∑ i ∈ range (51 * (g / 51)), x i, g % 51, wrap 32 (∑ i ∈ range (51 * (g / 51)), x i))
  | 0 => rfl
  | g + 1 => by
    unfold groupLoop
    rw [blockLoop_view, if_pos hcol, groupLoop_view hx hcol hlookup g, hlookup g, columnStep_eq hx]

theorem finalFlush_eq (hx : ∀ g, -640 ≤ x g ∧ x g ≤ 640) {col nBlocks : Nat} (hcol : col / 32 < nBlocks)
    (hlookup : ∀ g, lookup (buildTables fun i => a (5 * g + i)) (P g col) = x g) (g : Nat) :
    finalFlush (groupLoop a P nBlocks g) col = wrap 32 (∑ i ∈ range g, x i) := by
  have hview := groupLoop_view hx hcol hlookup g
  simp only [RowState.view, Prod.mk.injEq] at hview
  obtain ⟨hacc, hcnt, hc⟩ := hview
  have hlane : 32 * (col / 32) + col % 32 = col := Nat.div_add_mod col 32
  unfold finalFlush
  rw [hcnt, acc16ToAcc32_eq, hlane, hacc, hc]
  split
  · rw [wrap_add_left, add_sub_cancel]
  · next hzero =>
    have hdiv : 51 * (g / 51) = g := by omega
    rw [hdiv]

theorem tailColumn_eq {col : Nat} (hdot : ∀ g, tailDot a P g col = x g) : ∀ g : Nat,
    tailColumn a P col g = wrap 32 (∑ i ∈ range g, x i)
  | 0 => rfl
  | g + 1 => by
    unfold tailColumn
    rw [tailColumn_eq hdot g, hdot g, sum_range_succ, wrap_add_left]

end

/-! ## The matrix product -/

section

variable {A W : Nat → Nat → Int} {M K N : Nat}

/-- The product of one group of a row with a column. -/
def groupDot (a : Nat → Int) (W : Nat → Nat → Int) (K n g : Nat) : Int := dot5 (fun i => a (5 * g + i)) (groupWeights W K n g)

theorem groupDot_bounds {a : Nat → Int} (ha : IsInt8 a) (hW : ∀ k n, -1 ≤ W k n ∧ W k n ≤ 1) (n g : Nat) :
    -640 ≤ groupDot a W K n g ∧ groupDot a W K n g ≤ 640 :=
  dot5_bounds (fun i => ha (5 * g + i)) (groupWeights_ternary hW K n g)

theorem lookup_packed {a : Nat → Int} (ha : IsInt8 a) (hW : ∀ k n, -1 ≤ W k n ∧ W k n ≤ 1) (n g : Nat) :
    lookup (buildTables fun i => a (5 * g + i)) (lutPackWeights W K g n) = groupDot a W K n g := by
  rw [lutPackWeights_eq hW]
  exact lookup_eq (fun i => ha (5 * g + i)) (groupWeights_ternary hW K n g)

/-- The groups of a row and a column make up their product. -/
theorem sum_groupDot (a : Nat → Int) (W : Nat → Nat → Int) (hK : K % 5 = 0) (n : Nat) :
    ∑ g ∈ range (K / 5), groupDot a W K n g = ∑ k ∈ range K, a k * W k n := by
  have hterm : ∀ g ∈ range (K / 5), groupDot a W K n g = ∑ i ∈ range 5, a (5 * g + i) * W (5 * g + i) n := by
    intro g hg
    have hlt := mem_range.1 hg
    have hin : ∀ i < 5, groupWeights W K n g i = W (5 * g + i) n := fun i hi => by
      unfold groupWeights
      rw [if_pos (by omega)]
    simp only [groupDot, dot5, sum_range_succ, range_zero, sum_empty, zero_add]
    rw [hin 0 (by decide), hin 1 (by decide), hin 2 (by decide), hin 3 (by decide), hin 4 (by decide)]
  have hall : 5 * (K / 5) = K := by omega
  rw [sum_congr rfl hterm, sum_groups (fun k => a k * W k n) 5 (K / 5), hall]

/-- A row of the output is the product in 32 bits. -/
theorem processRow_eq {a : Nat → Int} (ha : IsInt8 a) (hW : ∀ k n, -1 ≤ W k n ∧ W k n ≤ 1) (hK : K % 5 = 0) (n : Nat) :
    processRow a (lutPackWeights W K) (K / 5) N n = wrap 32 (∑ k ∈ range K, a k * W k n) := by
  rw [← sum_groupDot a W hK n]
  unfold processRow
  dsimp only
  split
  · next hfull =>
    exact finalFlush_eq (groupDot_bounds ha hW n) (by omega) (lookup_packed ha hW n) (K / 5)
  · exact tailColumn_eq (fun g => tailDot_eq ha (groupWeights_ternary hW K n g) (lutPackWeights_eq hW K g n)) (K / 5)

theorem lutMm_eq_wrap (hA : ∀ m, IsInt8 (A m)) (hW : ∀ k n, -1 ≤ W k n ∧ W k n ≤ 1) (hK : K % 5 = 0) (C : Nat → Nat → Int)
    {m n : Nat} (hm : m < M) (hn : n < N) :
    lutMm true true A (lutPackWeights W K) M K N C m n = wrap 32 (∑ k ∈ range K, A m k * W k n) := by
  unfold lutMm
  rw [if_neg (by decide), if_pos ⟨hm, hn⟩, processRow_eq (hA m) hW hK]

/-- The sum that a lane adds to its 16-bit accumulator fits it, in every group of every row. -/
theorem acc16_fits {a : Nat → Int} (ha : IsInt8 a) (hW : ∀ k n, -1 ≤ W k n ∧ W k n ≤ 1) {n nBlocks : Nat}
    (hn : n / 32 < nBlocks) (g : Nat) :
    -2 ^ 15 ≤ (groupLoop a (lutPackWeights W K) nBlocks g).acc16 n +
        lookup (buildTables fun i => a (5 * g + i)) (lutPackWeights W K g n) ∧
      (groupLoop a (lutPackWeights W K) nBlocks g).acc16 n +
        lookup (buildTables fun i => a (5 * g + i)) (lutPackWeights W K g n) < 2 ^ 15 := by
  have hview := groupLoop_view (groupDot_bounds (K := K) ha hW n) hn (lookup_packed ha hW n) g
  simp only [RowState.view, Prod.mk.injEq] at hview
  have hbound := partial_bounds (groupDot_bounds (K := K) ha hW n) (51 * (g / 51)) (g % 51)
  have hsplit : 51 * (g / 51) + g % 51 = g := by omega
  have hterm := groupDot_bounds (K := K) ha hW n g
  rw [hsplit] at hbound
  rw [hview.1, lookup_packed ha hW]
  omega

/-- Up to 16777215 products are an `int32_t` together. -/
theorem sum_products_fits {a : Nat → Int} (ha : IsInt8 a) (hW : ∀ k n, -1 ≤ W k n ∧ W k n ≤ 1) (n : Nat) : ∀ k : Nat,
    -(128 * k) ≤ ∑ i ∈ range k, a i * W i n ∧ ∑ i ∈ range k, a i * W i n ≤ 128 * k
  | 0 => ⟨le_rfl, le_rfl⟩
  | k + 1 => by
    have hsum := sum_products_fits ha hW n k
    have hterm := mul_digit_bounds (ha k) (hW k n)
    rw [sum_range_succ]
    push_cast
    omega

/-- With its workspace the kernel writes the product in 32 bits, which is the product where that is an `int32_t`, as it is up
to `K = 16777215`, and leaves the rest of the output; no 16-bit accumulator overflows. -/
theorem lut_mm_product (hA : ∀ m, IsInt8 (A m)) (hW : ∀ k n, -1 ≤ W k n ∧ W k n ≤ 1) (hK : K % 5 = 0) (C : Nat → Nat → Int) :
    (∀ m n, lutMm true true A (lutPackWeights W K) M K N C m n =
        if m < M ∧ n < N then wrap 32 (∑ k ∈ range K, A m k * W k n) else C m n) ∧
      (∀ m < M, ∀ n < N, -2 ^ 31 ≤ ∑ k ∈ range K, A m k * W k n → ∑ k ∈ range K, A m k * W k n < 2 ^ 31 →
        lutMm true true A (lutPackWeights W K) M K N C m n = ∑ k ∈ range K, A m k * W k n) ∧
      (K ≤ 16777215 → ∀ m < M, ∀ n < N,
        lutMm true true A (lutPackWeights W K) M K N C m n = ∑ k ∈ range K, A m k * W k n) ∧
      ∀ m g n nBlocks, n / 32 < nBlocks →
        -2 ^ 15 ≤ (groupLoop (A m) (lutPackWeights W K) nBlocks g).acc16 n +
            lookup (buildTables fun i => A m (5 * g + i)) (lutPackWeights W K g n) ∧
          (groupLoop (A m) (lutPackWeights W K) nBlocks g).acc16 n +
            lookup (buildTables fun i => A m (5 * g + i)) (lutPackWeights W K g n) < 2 ^ 15 := by
  have hexact : ∀ m < M, ∀ n < N, -2 ^ 31 ≤ ∑ k ∈ range K, A m k * W k n → ∑ k ∈ range K, A m k * W k n < 2 ^ 31 →
      lutMm true true A (lutPackWeights W K) M K N C m n = ∑ k ∈ range K, A m k * W k n := by
    intro m hm n hn hlo hhi
    rw [lutMm_eq_wrap hA hW hK C hm hn]
    exact wrap_eq hlo hhi
  refine ⟨fun m n => ?_, hexact, fun hsmall m hm n hn => ?_, fun m g n nBlocks hn => acc16_fits (hA m) hW hn g⟩
  · split
    · next hin => exact lutMm_eq_wrap hA hW hK C hin.1 hin.2
    · next hout =>
      unfold lutMm
      rw [if_neg (by decide)]
      exact if_neg hout
  · have hbound := sum_products_fits (hA m) hW n K
    exact hexact m hm n hn (by omega) (by omega)

end

/-- A column of a full block and the tail column behind it. -/
theorem lut_mm_product_two_groups :
    [5, 32].map (lutMm true true (fun _ k => (k : Int) % 10)
        (lutPackWeights (fun k n => ((k + n : Nat) : Int) % 3 - 1) 10) 1 10 33 (fun _ _ => 7) 0) =
      [5, 32].map fun n => ∑ k ∈ range 10, ((k : Int) % 10) * (((k + n : Nat) : Int) % 3 - 1) := by
  refine List.map_congr_left fun n hn => ?_
  exact (lut_mm_product (A := fun _ k => (k : Int) % 10) (W := fun k n => ((k + n : Nat) : Int) % 3 - 1)
    (fun _ k => by dsimp only; omega) (fun k _ => ⟨by omega, by omega⟩) (by decide) _).2.2.1 (by decide) 0 (by decide) n
    (by simp at hn; omega)

/-- Where all products have the same sign, an `int32_t` does not hold the sum of 16777220 of them. -/
theorem sum_overflows : ¬ ∀ (A W : Nat → Nat → Int) (M K N : Nat) (C : Nat → Nat → Int),
    (∀ m, IsInt8 (A m)) → (∀ k n, -1 ≤ W k n ∧ W k n ≤ 1) → K % 5 = 0 →
      ∀ m < M, ∀ n < N, lutMm true true A (lutPackWeights W K) M K N C m n = ∑ k ∈ range K, A m k * W k n := by
  intro h
  have hA : ∀ m : Nat, IsInt8 ((fun _ _ => -128 : Nat → Nat → Int) m) := fun _ _ => ⟨le_rfl, by norm_num⟩
  have hW : ∀ k n : Nat, -1 ≤ (fun _ _ => -1 : Nat → Nat → Int) k n ∧ (fun _ _ => -1 : Nat → Nat → Int) k n ≤ 1 :=
    fun _ _ => ⟨le_rfl, by norm_num⟩
  have hsum := h (fun _ _ => -128) (fun _ _ => -1) 1 16777220 1 (fun _ _ => 0) hA hW (by decide) 0 (by decide) 0 (by decide)
  rw [lutMm_eq_wrap hA hW (by decide) _ (by decide) (by decide), sum_const, card_range] at hsum
  exact absurd hsum (by decide +kernel)

end BitForge.LutTernary
