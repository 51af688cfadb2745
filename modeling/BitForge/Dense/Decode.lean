/-
What the kernel decodes from a packed matrix, and the ternary values that a checkpoint stands for.
Row-packed bytes are unpacked to exactly those values; floats are, unless the conversion to `int8`
changes the sign of a rounded quotient.
-/
import BitForge.Dense.Load
import BitForge.Format.Decode
import BitForge.Lib.CString

namespace BitForge.Dense

open BitForge.Lib BitForge.Format

/-! ## Packing -/

/-- The four bit pairs of a byte. -/
theorem unpackByte_pairs {a b c d : UInt8} (ha : a.toNat < 4) (hb : b.toNat < 4) (hc : c.toNat < 4) (hd : d.toNat < 4) :
    let byte := a ||| (b <<< 2) ||| (c <<< 4) ||| (d <<< 6)
    unpackByte byte 0 = a.toNat - 1 ∧ unpackByte byte 1 = b.toNat - 1 ∧ unpackByte byte 2 = c.toNat - 1 ∧
      unpackByte byte 3 = d.toNat - 1 := by
  have hall : ∀ a b c d : Fin 4,
      let byte := UInt8.ofNat a ||| (UInt8.ofNat b <<< 2) ||| (UInt8.ofNat c <<< 4) ||| (UInt8.ofNat d <<< 6)
      unpackByte byte 0 = (a : Nat) - 1 ∧ unpackByte byte 1 = (b : Nat) - 1 ∧ unpackByte byte 2 = (c : Nat) - 1 ∧
        unpackByte byte 3 = (d : Nat) - 1 := by decide +kernel
  have h := hall ⟨_, ha⟩ ⟨_, hb⟩ ⟨_, hc⟩ ⟨_, hd⟩
  simpa only [UInt8.ofNat_toNat] using h

/-- A byte of four packed values below 4 unpacks to them. -/
theorem unpackByte_packed {n : Nat} {enc : Nat → UInt8} (henc : ∀ k < n, (enc k).toNat < 4) {k : Nat} (hk : k < n) :
    unpackByte (packByte n enc (k / 4)) k = (enc k).toNat - 1 := by
  have hpad : ∀ m, (if m < n then enc m else 0).toNat < 4 := by
    intro m
    split_ifs with h
    · exact henc m h
    · decide
  have hval : (if k < n then enc k else 0) = enc k := if_pos hk
  unfold packByte
  dsimp only
  rw [unpackByte_mod]
  obtain ⟨h0, h1, h2, h3⟩ := unpackByte_pairs (hpad (4 * (k / 4))) (hpad (4 * (k / 4) + 1)) (hpad (4 * (k / 4) + 2))
    (hpad (4 * (k / 4) + 3))
  rw [← hval]
  have hr : k % 4 = 0 ∨ k % 4 = 1 ∨ k % 4 = 2 ∨ k % 4 = 3 := by omega
  rcases hr with hr | hr | hr | hr
  · have he : 4 * (k / 4) = k := by omega
    rw [hr, h0, he]
  · have he : 4 * (k / 4) + 1 = k := by omega
    rw [hr, h1, he]
  · have he : 4 * (k / 4) + 2 = k := by omega
    rw [hr, h2, he]
  · have he : 4 * (k / 4) + 3 = k := by omega
    rw [hr, h3, he]

/-- The place of an entry in the flattened matrix, when a row is whole bytes. -/
theorem entry_index {rows cols i j : Nat} (h4 : cols % 4 = 0) (hi : i < rows) (hj : j < cols) :
    i * cols + j < rows * cols ∧ i * packedLen cols + j / 4 = (i * cols + j) / 4 ∧ (i * cols + j) % 4 = j % 4 ∧
      (i * cols + j) / cols = i ∧ (i * cols + j) % cols = j := by
  have hlt : i * cols + j < rows * cols := by
    calc i * cols + j < i * cols + cols := Nat.add_lt_add_left hj _
      _ = (i + 1) * cols := (Nat.succ_mul i cols).symm
      _ ≤ rows * cols := Nat.mul_le_mul_right _ hi
  have hrow : i * cols = 4 * (i * packedLen cols) := by
    have hcols : cols = 4 * packedLen cols := by unfold packedLen; omega
    conv_lhs => rw [hcols]
    ring
  refine ⟨hlt, by omega, by omega, ?_, ?_⟩
  · rw [Nat.add_comm, Nat.add_mul_div_right _ _ (by omega), Nat.div_eq_of_lt hj, Nat.zero_add]
  · rw [Nat.add_comm, Nat.add_mul_mod_self_right, Nat.mod_eq_of_lt hj]

theorem toNat_ofInt_succ {z : Int} (h0 : -1 ≤ z) (h2 : z ≤ 2) : ((UInt8.ofInt (z + 1)).toNat : Int) = z + 1 := by
  have hcases : z = -1 ∨ z = 0 ∨ z = 1 ∨ z = 2 := by omega
  rcases hcases with rfl | rfl | rfl | rfl <;> decide

@[simp] theorem length_packTernaryArray (rows cols : Nat) (v : Nat → Nat → Int) :
    (packTernaryArray rows cols v).length = packedLen (rows * cols) := by simp [packTernaryArray]

/-- The kernel decodes the values of a packed matrix whose rows are whole bytes. -/
theorem ternaryEntry_packed {rows cols : Nat} {v : Nat → Nat → Int} (hv : ∀ i < rows, ∀ j < cols, -1 ≤ v i j ∧ v i j ≤ 2)
    (h4 : cols % 4 = 0) (hc : cols < 2 ^ 31) (pre post : List UInt8) {i j : Nat} (hi : i < rows) (hj : j < cols) :
    ternaryEntry (pre ++ packTernaryArray rows cols v ++ post) pre.length cols i j = some (v i j) := by
  obtain ⟨hlt, hidx, hmod, hdiv, hrem⟩ := entry_index h4 hi hj
  have hin : (i * cols + j) / 4 < packedLen (rows * cols) := by unfold packedLen; omega
  have henc : ∀ k < rows * cols, (UInt8.ofInt (v (k / cols) (k % cols) + 1)).toNat < 4 := by
    intro k hk
    have hcols : 0 < cols := by omega
    obtain ⟨h0, h2⟩ := hv (k / cols) ((Nat.div_lt_iff_lt_mul hcols).2 hk) (k % cols) (Nat.mod_lt _ hcols)
    have := toNat_ofInt_succ h0 h2
    omega
  have hbyte : byteAt (pre ++ packTernaryArray rows cols v ++ post) (pre.length + (i * cols + j) / 4) =
      packByte (rows * cols) (fun k => UInt8.ofInt (v (k / cols) (k % cols) + 1)) ((i * cols + j) / 4) := by
    rw [List.append_assoc, byteAt_append_right, byteAt_append_left _ (by simpa using hin)]
    unfold byteAt packTernaryArray
    rw [List.getElem?_map, List.getElem?_range hin]
    rfl
  have hval := unpackByte_packed henc hlt
  unfold ternaryEntry
  dsimp only
  rw [packedBytes_of_lt hc, Nat.add_assoc, hidx, if_pos, hbyte]
  · rw [unpackByte_mod, ← hmod, ← unpackByte_mod, hval, hdiv, hrem]
    obtain ⟨h0, h2⟩ := hv i hi j hj
    rw [toNat_ofInt_succ h0 h2]
    congr 1
    omega
  · refine ⟨hc, ?_⟩
    rw [List.length_append, List.length_append, length_packTernaryArray]
    omega

/-! ## The values of a checkpoint -/

/-- The value that the bit pair `k` of a byte stands for. -/
def bitPair (b : UInt8) (k : Nat) : Int := ((b.toNat / 4 ^ k % 4 : Nat) : Int) - 1

/-- The ternary value `(i, j)` of a matrix: the weight over the scale, rounded and clipped; or what the
packed byte `(i mod R, j)` holds in the bit pair `i div R`. -/
def Matrix.value (np : NumPy) : Matrix → Nat → Nat → Int
  | floats rows cols w, i, j => clip (np.round (np.quotient (w i j) ((floats rows cols w).scale np)))
  | msPacked packedRows _ bytes _, i, j => bitPair (bytes (i % packedRows) j) (i / packedRows)

theorem clip_eq_sign (z : Int) : clip z = z.sign := by
  unfold clip
  rcases lt_trichotomy z 0 with h | rfl | h
  · rw [Int.sign_eq_neg_one_of_neg h]; omega
  · rfl
  · rw [Int.sign_eq_one_of_pos h]; omega

theorem clip_mem (z : Int) : -1 ≤ clip z ∧ clip z ≤ 2 := by unfold clip; omega

theorem mask_bitPair (b : UInt8) {k : Nat} (hk : k < 4) :
    (((b &&& (3 <<< UInt8.ofNat (2 * k))) >>> UInt8.ofNat (2 * k)).toNat : Int) - 1 = bitPair b k := by
  have hall : ∀ b : UInt8, ∀ k : Fin 4,
      (((b &&& (3 <<< UInt8.ofNat (2 * k))) >>> UInt8.ofNat (2 * k)).toNat : Int) - 1 = bitPair b k :=
    uint8_forall (by decide +kernel)
  exact hall b ⟨k, hk⟩

theorem bitPair_mem (b : UInt8) (k : Nat) : -1 ≤ bitPair b k ∧ bitPair b k ≤ 2 := by
  unfold bitPair
  omega

/-- `unpack_ms_packed` gives the values that the bytes hold. -/
theorem unpackMsPacked_eq {packedRows : Nat} (bytes : Nat → Nat → UInt8) {i : Nat} (hi : i < packedRows * 4) (j : Nat) :
    unpackMsPacked packedRows bytes i j = bitPair (bytes (i % packedRows) j) (i / packedRows) := by
  have hk : i / packedRows < 4 := by
    rw [Nat.div_lt_iff_lt_mul (by omega), Nat.mul_comm]
    exact hi
  have hrow : i - i / packedRows * packedRows = i % packedRows := by
    have := Nat.div_add_mod' i packedRows
    omega
  unfold unpackMsPacked
  dsimp only
  rw [hrow, mask_bitPair _ hk]

theorem quantized_mem (np : NumPy) (x : Matrix) {i : Nat} (hi : i < x.rows) (j : Nat) :
    -1 ≤ x.quantized np i j ∧ x.quantized np i j ≤ 2 := by
  cases x with
  | floats rows cols w => exact clip_mem _
  | msPacked packedRows cols bytes scale =>
    show -1 ≤ unpackMsPacked packedRows bytes i j ∧ unpackMsPacked packedRows bytes i j ≤ 2
    rw [unpackMsPacked_eq bytes hi]
    exact bitPair_mem _ _

/-- The conversion to `int8` keeps the sign of every rounded quotient of a float matrix. -/
def Matrix.QuotientsKept (np : NumPy) : Matrix → Prop
  | floats rows cols w => ∀ i < rows, ∀ j < cols,
    let z := np.round (np.quotient (w i j) ((floats rows cols w).scale np))
    (np.toInt8 z).sign = z.sign
  | msPacked .. => True

/-- The converter packs the values of the matrix exactly when the conversion keeps the signs. -/
theorem quantized_eq_value_iff (np : NumPy) (x : Matrix) :
    (∀ i < x.rows, ∀ j < x.cols, x.quantized np i j = x.value np i j) ↔ x.QuotientsKept np := by
  cases x with
  | floats rows cols w =>
    simp only [Matrix.quantized, validateAndQuantizeTernary, Matrix.value, clip_eq_sign, Matrix.QuotientsKept, Matrix.rows,
      Matrix.cols]
  | msPacked packedRows cols bytes scale =>
    simp only [Matrix.QuotientsKept, iff_true]
    intro i hi j _
    exact unpackMsPacked_eq bytes hi j

/-- No quotient beyond the numbers of `int8` is enough. -/
theorem quotientsKept_of_mem {np : NumPy} {rows cols : Nat} {w : Nat → Nat → UInt32}
    (h : ∀ i < rows, ∀ j < cols, -128 ≤ np.round (np.quotient (w i j) ((Matrix.floats rows cols w).scale np)) ∧
      np.round (np.quotient (w i j) ((Matrix.floats rows cols w).scale np)) ≤ 127) :
    (Matrix.floats rows cols w).QuotientsKept np := by
  intro i hi j hj
  obtain ⟨h0, h1⟩ := h i hi j hj
  show (np.toInt8 _).sign = _
  rw [np.toInt8_of_mem _ h0 h1]

end BitForge.Dense
