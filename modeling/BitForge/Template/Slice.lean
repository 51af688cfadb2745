/-
Slices of the template evaluator are those of CPython.
-/
import BitForge.Template.Value

namespace BitForge.Template

open BitForge.Lib

/-! ## CPython -/

/-- `PY_SSIZE_T_MAX` and `PY_SSIZE_T_MIN` -/
def ssizeMax : Int := 2 ^ 63 - 1

def ssizeMin : Int := -2 ^ 63

/-- `PySlice_AdjustIndices`, for one of the bounds. -/
def adjustIndex (len step x : Int) : Int :=
  if x < 0 then
    if x + len < 0 then (if step < 0 then -1 else 0) else x + len
  else if x ≥ len then (if step < 0 then len - 1 else len)
  else x

/-- `slicelength` -/
def sliceLength (start stop step : Int) : Int :=
  if step < 0 then
    if stop < start then (start - stop - 1) / (-step) + 1 else 0
  else if start < stop then (stop - start - 1) / step + 1
  else 0

/-- `a[start:stop:step]`: `PySlice_Unpack`, `PySlice_AdjustIndices` and the loop of `list_subscript`. -/
def pySlice (arr : List Value) (start stop step : Option Int) : List Value :=
  let step := step.getD 1
  let start := adjustIndex arr.length step (start.getD (if step < 0 then ssizeMax else 0))
  let stop := adjustIndex arr.length step (stop.getD (if step < 0 then ssizeMin else ssizeMax))
  (List.range (sliceLength start stop step).toNat).map fun k : Nat => arr.getD (start + k * step).toNat .undefined

/-! ## The loop -/

/-- `max_size` of a vector of values, which take 128 bytes each. -/
def maxSize : Nat := (2 ^ 63 - 1) / 128

/-- The elements left, at the distance `d` from the end and in steps of `s`. -/
def countLeft (d s : Int) : Int := if 0 < d then (d - 1) / s + 1 else 0

theorem countLeft_step {d s : Int} (hd : 0 < d) (hs : 0 < s) : countLeft d s = countLeft (d - s) s + 1 := by
  unfold countLeft
  rw [if_pos hd]
  split_ifs with hnext
  · have hdiv : (d - s - 1) / s = (d - 1) / s - 1 := by
      rw [show d - s - 1 = d - 1 + -1 * s by ring, Int.add_mul_ediv_right _ _ (by omega)]
      ring
    rw [hdiv]
    ring
  · rw [Int.ediv_eq_zero_of_lt (by omega) (by omega)]

theorem countLeft_le (d s : Int) : countLeft d s ≤ max d 0 := by
  unfold countLeft
  split_ifs with hd
  · have hdiv : (d - 1) / s ≤ d - 1 := Int.ediv_le_self _ (by omega)
    omega
  · omega

/-- How far the index is from the end, in the direction of the step. -/
def distance (stop step i : Int) : Int := if step > 0 then stop - i else i - stop

/-- The indices that the loop passes are in the array. -/
structure Inside (len : Nat) (stop step i : Int) : Prop where
  up : step > 0 → 0 ≤ i ∧ stop ≤ len
  down : step < 0 → i < len ∧ -1 ≤ stop
  step_ne : step ≠ 0
  step_lt : |step| < 2 ^ 62

theorem Inside.next {len : Nat} {stop step i : Int} (h : Inside len stop step i) : Inside len stop step (i + step) where
  up hstep := ⟨by have := h.up hstep; omega, (h.up hstep).2⟩
  down hstep := ⟨by have := h.down hstep; omega, (h.down hstep).2⟩
  step_ne := h.step_ne
  step_lt := h.step_lt

theorem Inside.index {len : Nat} {stop step i : Int} (h : Inside len stop step i) (hd : 0 < distance stop step i) :
    0 ≤ i ∧ i < len := by
  unfold distance at hd
  have hne := h.step_ne
  split_ifs at hd with hstep
  · have := h.up hstep
    omega
  · have := h.down (by omega)
    omega

/-- The loop ends after the elements that are left. -/
theorem sliceLoop_eq {arr : List Value} (hmax : arr.length ≤ maxSize) {stop step : Int} : ∀ {fuel : Nat} {i : Int},
    Inside arr.length stop step i → countLeft (distance stop step i) |step| < fuel →
      sliceLoop arr stop step fuel i =
        some ((List.range (countLeft (distance stop step i) |step|).toNat).map fun k : Nat => arr.getD (i + k * step).toNat .undefined)
  | 0, i, _, hfuel => by
    unfold countLeft at hfuel
    split_ifs at hfuel with hd
    · have hdiv : 0 ≤ (distance stop step i - 1) / |step| := Int.ediv_nonneg (by omega) (abs_nonneg step)
      omega
    · omega
  | fuel + 1, i, hin, hfuel => by
    have hpos : 0 < |step| := abs_pos.2 hin.step_ne
    have hcond : (if step > 0 then i < stop else i > stop) ↔ 0 < distance stop step i := by
      unfold distance
      split_ifs <;> omega
    have hnext : distance stop step (i + step) = distance stop step i - |step| := by
      unfold distance
      split_ifs with hstep
      · rw [abs_of_pos hstep]
        ring
      · rw [abs_of_nonpos (by omega)]
        ring
    unfold sliceLoop
    by_cases hd : 0 < distance stop step i
    · rw [if_pos (hcond.2 hd)]
      obtain ⟨hlo, hhi⟩ := hin.index hd
      have hcount := countLeft_step hd hpos
      have hrest := @sliceLoop_eq _ hmax _ _ fuel _ hin.next (by rw [hnext]; omega)
      have hget : arr[i.toNat]? = some (arr.getD i.toNat .undefined) := by
        rw [List.getD_eq_getElem?_getD, List.getElem?_eq_getElem (by omega), Option.getD_some]
      have hadd : addInt i step = some (i + step) := by
        obtain ⟨hslo, hshi⟩ := abs_lt.1 hin.step_lt
        unfold maxSize at hmax
        unfold addInt Value.inRange
        rw [if_pos (by simp only [Bool.and_eq_true, decide_eq_true_eq]; omega)]
      have hleft : 0 ≤ countLeft (distance stop step i - |step|) |step| := by
        unfold countLeft
        split_ifs with h
        · have hdiv : 0 ≤ (distance stop step i - |step| - 1) / |step| := Int.ediv_nonneg (by omega) hpos.le
          omega
        · exact le_refl 0
      rw [if_pos hlo, hget, hadd]
      simp only [Option.bind_eq_bind, Option.bind_some, hrest, hnext]
      rw [hcount, Int.toNat_add hleft (by decide), show Int.toNat 1 = 1 from rfl, List.range_succ_eq_map]
      have hidx : ∀ k : Nat, i + step + k * step = i + ((k + 1 : Nat) : Int) * step := fun k => by push_cast; ring
      simp [Function.comp_def, hidx]
    · rw [if_neg (mt hcond.1 hd)]
      unfold countLeft
      simp [hd]

/-! ## The bounds -/

theorem addInt_len {x : Int} {len : Nat} (hx : |x| < 2 ^ 62) (hmax : len ≤ maxSize) : addInt x len = some (x + len) := by
  obtain ⟨hlo, hhi⟩ := abs_lt.1 hx
  unfold maxSize at hmax
  unfold addInt Value.inRange
  rw [if_pos (by simp only [Bool.and_eq_true, decide_eq_true_eq]; omega)]

theorem adjust_up {x step : Int} {len : Nat} (hx : |x| < 2 ^ 62) (hmax : len ≤ maxSize) (hstep : step > 0) :
    clampUp x len = some (adjustIndex len step x) := by
  unfold clampUp adjustIndex
  split_ifs <;> simp only [addInt_len hx hmax, Option.map_some, Option.some.injEq] <;> omega

theorem adjust_down {x step : Int} {len : Nat} (hx : |x| < 2 ^ 62) (hmax : len ≤ maxSize) (hstep : step < 0) :
    clampDown x len = some (adjustIndex len step x) := by
  unfold clampDown adjustIndex
  split_ifs <;> simp only [addInt_len hx hmax, Option.map_some, Option.some.injEq] <;> omega

theorem adjustIndex_up {x step : Int} {len : Nat} (hstep : step > 0) : 0 ≤ adjustIndex len step x ∧ adjustIndex len step x ≤ len := by
  unfold adjustIndex
  split_ifs <;> omega

theorem adjustIndex_down {x step : Int} {len : Nat} (hstep : step < 0) : -1 ≤ adjustIndex len step x ∧ adjustIndex len step x < len := by
  unfold adjustIndex
  split_ifs <;> omega

theorem sliceLength_eq {start stop step : Int} (hstep : step ≠ 0) :
    sliceLength start stop step = countLeft (distance stop step start) |step| := by
  unfold sliceLength countLeft distance
  rcases lt_or_gt_of_ne hstep with hneg | hpos
  · have hcond : 0 < start - stop ↔ stop < start := by omega
    simp only [if_pos hneg, if_neg (show ¬step > 0 by omega), abs_of_neg hneg, hcond]
  · have hcond : 0 < stop - start ↔ start < stop := by omega
    simp only [if_neg (show ¬step < 0 by omega), if_pos hpos, abs_of_pos hpos, hcond]

/-- The loop between adjusted bounds. -/
theorem sliceLoop_adjusted {arr : List Value} (hmax : arr.length ≤ maxSize) {step : Int} (hne : step ≠ 0) (hlt : |step| < 2 ^ 62)
    (x y : Int) :
    sliceLoop arr (adjustIndex arr.length step y) step (arr.length + 1) (adjustIndex arr.length step x) =
      some ((List.range (sliceLength (adjustIndex arr.length step x) (adjustIndex arr.length step y) step).toNat).map
        fun k : Nat => arr.getD (adjustIndex arr.length step x + k * step).toNat .undefined) := by
  have hin : Inside arr.length (adjustIndex arr.length step y) step (adjustIndex arr.length step x) :=
    { up := fun h => ⟨(adjustIndex_up h).1, (adjustIndex_up h).2⟩
      down := fun h => ⟨(adjustIndex_down h).2, (adjustIndex_down h).1⟩
      step_ne := hne
      step_lt := hlt }
  have hdist : distance (adjustIndex arr.length step y) step (adjustIndex arr.length step x) ≤ arr.length := by
    unfold distance
    split_ifs with hstep
    · have hx := @adjustIndex_up x _ arr.length hstep
      have hy := @adjustIndex_up y _ arr.length hstep
      omega
    · have hx := @adjustIndex_down x step arr.length (by omega)
      have hy := @adjustIndex_down y step arr.length (by omega)
      omega
  have hcount := countLeft_le (distance (adjustIndex arr.length step y) step (adjustIndex arr.length step x)) |step|
  rw [sliceLoop_eq hmax hin (by push_cast; omega), sliceLength_eq hne]

/-- The slice of an array by integers. -/
theorem getslice_eq_pySlice {arr : List Value} (hmax : arr.length ≤ maxSize) {start stop step : Option Int}
    (hstart : ∀ i, start = some i → |i| < 2 ^ 62) (hstop : ∀ i, stop = some i → |i| < 2 ^ 62)
    (hstep : ∀ i, step = some i → |i| < 2 ^ 62 ∧ i ≠ 0) :
    getslice arr (start.map .int) (stop.map .int) (step.map .int) = some (pySlice arr start stop step) := by
  have hstep' : |step.getD 1| < 2 ^ 62 ∧ step.getD 1 ≠ 0 := by
    cases step with
    | none => exact ⟨by norm_num, by decide⟩
    | some i => exact hstep i rfl
  have hval : ((step.map Value.int).map Value.toInt).getD 1 = step.getD 1 := by
    cases step <;> rfl
  unfold getslice pySlice
  dsimp only
  rw [hval]
  generalize step.getD 1 = s at hstep'
  obtain ⟨hlt, hne⟩ := hstep'
  have hlen := hmax
  unfold maxSize at hlen
  rw [if_neg hne]
  rcases lt_or_gt_of_ne hne with hneg | hpos
  · -- downwards: without bounds from the last element to in front of the first
    have hx : clampDown (((start.map Value.int).map Value.toInt).getD (arr.length - 1)) arr.length =
        some (adjustIndex arr.length s (start.getD ssizeMax)) := by
      cases start with
      | some i => exact adjust_down (hstart i rfl) hmax hneg
      | none =>
        refine (adjust_down (x := (arr.length : Int) - 1) (abs_lt.2 ⟨by omega, by omega⟩) hmax hneg).trans ?_
        unfold adjustIndex ssizeMax
        simp only [Option.getD_none, Option.some.injEq]
        split_ifs <;> omega
    have hy : ((stop.map Value.int).elim (some (-1)) fun v => clampDown v.toInt arr.length) =
        some (adjustIndex arr.length s (stop.getD ssizeMin)) := by
      cases stop with
      | some i => exact adjust_down (hstop i rfl) hmax hneg
      | none =>
        unfold adjustIndex ssizeMin
        simp only [Option.map_none, Option.elim_none, Option.getD_none, Option.some.injEq]
        split_ifs <;> omega
    rw [if_neg (show ¬s > 0 by omega), if_pos hneg, if_pos hneg, hx, hy]
    exact sliceLoop_adjusted hmax hne hlt _ _
  · -- upwards: without bounds from the first element to behind the last
    have hx : clampUp (((start.map Value.int).map Value.toInt).getD 0) arr.length = some (adjustIndex arr.length s (start.getD 0)) := by
      cases start with
      | some i => exact adjust_up (hstart i rfl) hmax hpos
      | none => exact adjust_up (x := 0) (by norm_num) hmax hpos
    have hy : clampUp (((stop.map Value.int).map Value.toInt).getD arr.length) arr.length =
        some (adjustIndex arr.length s (stop.getD ssizeMax)) := by
      cases stop with
      | some i => exact adjust_up (hstop i rfl) hmax hpos
      | none =>
        refine (adjust_up (x := (arr.length : Int)) (abs_lt.2 ⟨by omega, by omega⟩) hmax hpos).trans ?_
        unfold adjustIndex ssizeMax
        simp only [Option.getD_none, Option.some.injEq]
        split_ifs <;> omega
    rw [if_pos hpos, if_neg (show ¬s < 0 by omega), if_neg (show ¬s < 0 by omega), hx, hy]
    exact sliceLoop_adjusted hmax hne hlt _ _

/-- A bound of a slice: not given, or an expression with an integer value. -/
def IsBound (get : Str → Value) (n : Node) (b : Option Int) : Prop :=
  n.isNull = true ∧ b = none ∨ n.isNull = false ∧ ∃ i, eval get n = some (.int i) ∧ b = some i ∧ |i| < 2 ^ 62

theorem IsBound.eval {get : Str → Value} {n : Node} {b : Option Int} (h : IsBound get n b) :
    n.given (Template.eval get n) = some (b.map Value.int) ∧ ∀ i, b = some i → |i| < 2 ^ 62 := by
  rcases h with ⟨hnull, rfl⟩ | ⟨hnull, i, heval, rfl, hlt⟩
  · simp [Node.given, hnull]
  · refine ⟨by simp [Node.given, hnull, heval], ?_⟩
    rintro j ⟨⟩
    exact hlt

/-- A slice of an array, with any of its bounds given, evaluates to the slice of CPython. -/
theorem eval_getslice {get : Str → Value} {obj start stop step : Node} {arr : List Value} {a b c : Option Int}
    (hobj : eval get obj = some (.array arr)) (hmax : arr.length ≤ maxSize) (hstart : IsBound get start a)
    (hstop : IsBound get stop b) (hstep : IsBound get step c) (hne : c ≠ some 0) :
    eval get (.getslice obj start stop step) = some (.array (pySlice arr a b c)) := by
  obtain ⟨hstart, hstart62⟩ := hstart.eval
  obtain ⟨hstop, hstop62⟩ := hstop.eval
  obtain ⟨hstep, hstep62⟩ := hstep.eval
  have hslice := getslice_eq_pySlice hmax hstart62 hstop62 fun i hi => ⟨hstep62 i hi, fun h0 => hne (h0 ▸ hi)⟩
  simp [eval, hobj, hstart, hstop, hstep, hslice]

theorem eval_getslice_reversed : eval (fun _ => .array [.int 1, .int 2, .int 3])
      (.getslice (.ident (ascii "messages")) .null .null (.unop .neg (.litInt 1))) =
    some (.array (pySlice [.int 1, .int 2, .int 3] none none (some (-1)))) :=
  eval_getslice rfl (by decide) (.inl ⟨rfl, rfl⟩) (.inl ⟨rfl, rfl⟩) (.inr ⟨rfl, -1, rfl, rfl, by decide⟩) (by decide)

end BitForge.Template
