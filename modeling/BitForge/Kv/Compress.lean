/-
KV vectors with 8 and with 4 bits a number, `kv_cache/kv_compress.c`, over any ordered field with a floor in place of the
floats. Arrays are functions of the index; what is read is logged, and what is written is a list of stores.
-/
import BitForge.Lib.Rounding
import BitForge.Lib.Simd
import BitForge.Lib.Writes

namespace BitForge.Kv

open BitForge.Lib.Rounding BitForge.Lib.Simd BitForge.Lib.Writes

/-- What is stored in an array and the scale beside it. -/
structure Compressed (K : Type) where
  scale : K
  stores : List (Nat × Int)

/-- The reads of the codes, and the stores of the numbers. -/
structure Decompressed (K : Type) where
  reads : List Nat
  stores : List (Nat × K)

/-- An array after the stores. -/
def Compressed.array {K : Type} (c : Compressed K) (old : Nat → Int) : Nat → Int := fun a => (stored c.stores a).getD (old a)

section

variable {K : Type} [Field K] [LinearOrder K] [FloorRing K]

/-- `amax` after a number of elements. -/
def amax (src : Nat → K) : Nat → K
  | 0 => 0
  | n + 1 =>
    let a := |src n|
    if a > amax src n then a else amax src n

/-- `1e-30f` -/
def tiny : K := 1 / 10 ^ 30

/-- `q`: rounded away from zero from the half on, by truncation, and clamped. -/
def quantized (levels : Int) (v : K) : Int :=
  let half : K := 1 / (2 : Nat)
  let q := trunc (v + if v ≥ 0 then half else -half)
  let q := if q > levels then levels else q
  if q < -levels then -levels else q

/-! ## Eight bits -/

def kvCompressTo8bit (src : Nat → K) (dim : Nat) : Compressed K :=
  let amax := amax src dim
  if amax < tiny then ⟨0, (List.range dim).map fun i => (i, 0)⟩
  else
    let invScale := (127 : Nat) / amax
    ⟨amax / (127 : Nat), (List.range dim).map fun i => (i, wrap 8 (quantized 127 (src i * invScale)))⟩

def kvDecompressFrom8bit (data : Nat → Int) (scale : K) (dim : Nat) : Decompressed K :=
  ⟨List.range dim, (List.range dim).map fun i => (i, (data i : K) * scale)⟩

/-! ## Four bits -/

/-- `u0` and `u1`, as `tn_u8`. -/
def nibbleCode (v : K) : Nat := ((quantized 7 v + 8) % 256).toNat

/-- The rounds are those of `i = 2 * k`. -/
def kvCompressTo4bit (src : Nat → K) (dim : Nat) : Compressed K :=
  let amax := amax src dim
  if amax < tiny then
    let packedLen := (dim + 1) / 2
    ⟨0, (List.range packedLen).map fun i => (i, 0x88)⟩
  else
    let invScale := 7 / amax
    ⟨amax / 7, (List.range ((dim + 1) / 2)).map fun k =>
      let i := 2 * k
      let u0 := nibbleCode (src i * invScale)
      let u1 := if i + 1 < dim then nibbleCode (src (i + 1) * invScale) else 8
      (i / 2, (((u1 <<< 4) ||| (u0 &&& 0x0F)) % 256 : Nat))⟩

def kvDecompressFrom4bit (src : Nat → Int) (scale : K) (dim : Nat) : Decompressed K :=
  ⟨(List.range ((dim + 1) / 2)).map fun k => 2 * k / 2, (List.range ((dim + 1) / 2)).flatMap fun k =>
    let i := 2 * k
    let packed := (src (i / 2)).toNat
    let q0 := ((packed &&& 0x0F : Nat) : Int) - 8
    let q1 := ((packed >>> 4 : Nat) : Int) - 8
    (i, (q0 : K) * scale) :: if i + 1 < dim then [(i + 1, (q1 : K) * scale)] else []⟩

/-! ## Codes and scales -/

/-- The code of a number. -/
def code8 (src : Nat → K) (dim i : Nat) : Int :=
  if amax src dim < tiny then 0 else quantized 127 (src i * ((127 : Nat) / amax src dim))

/-- The code of a number, with its offset. -/
def code4 (src : Nat → K) (dim i : Nat) : Nat :=
  if amax src dim < tiny then 8 else nibbleCode (src i * (7 / amax src dim))

/-- The code in the upper nibble of a byte, at the end the one of zero. -/
def upperCode (src : Nat → K) (dim i : Nat) : Nat := if i + 1 < dim then code4 src dim (i + 1) else 8

/-- The byte of two numbers. -/
def byte4 (src : Nat → K) (dim k : Nat) : Nat :=
  ((upperCode src dim (2 * k) <<< 4) ||| (code4 src dim (2 * k) &&& 0x0F)) % 256

theorem stores_4bit (src : Nat → K) (dim : Nat) :
    (kvCompressTo4bit src dim).stores = (List.range ((dim + 1) / 2)).map fun k => (k, (byte4 src dim k : Int)) := by
  unfold kvCompressTo4bit
  dsimp only
  split
  · next hm =>
    refine List.map_congr_left fun k _ => ?_
    have hcode : ∀ i, code4 src dim i = 8 := fun i => if_pos hm
    unfold byte4 upperCode
    rw [hcode, hcode, ite_self]
    rfl
  · next hm =>
    refine List.map_congr_left fun k _ => ?_
    have hcode : ∀ i, code4 src dim i = nibbleCode (src i * (7 / amax src dim)) := fun i => if_neg hm
    unfold byte4 upperCode
    rw [hcode, hcode, Nat.mul_div_cancel_left _ (by decide)]

theorem scale_8bit (src : Nat → K) (dim : Nat) :
    (kvCompressTo8bit src dim).scale = if amax src dim < tiny then 0 else amax src dim / 127 := by
  unfold kvCompressTo8bit
  dsimp only
  split <;> rfl

theorem scale_4bit (src : Nat → K) (dim : Nat) :
    (kvCompressTo4bit src dim).scale = if amax src dim < tiny then 0 else amax src dim / 7 := by
  unfold kvCompressTo4bit
  dsimp only
  split <;> rfl

theorem array_4bit (src : Nat → K) {dim k : Nat} (old : Nat → Int) (hk : k < (dim + 1) / 2) :
    (kvCompressTo4bit src dim).array old k = byte4 src dim k := by
  unfold Compressed.array
  rw [stores_4bit, stored_map_range, if_pos hk]
  rfl

end

/-! ## The largest absolute value -/

section

variable {K : Type} [Field K] [LinearOrder K]

/-- The largest absolute value of a vector. -/
structure IsLargest (src : Nat → K) (dim : Nat) (m : K) : Prop where
  le : ∀ i < dim, |src i| ≤ m
  mem : ∃ i < dim, |src i| = m

theorem abs_le_amax (src : Nat → K) : ∀ (n : Nat), ∀ i < n, |src i| ≤ amax src n
  | n + 1, i, hi => by
    have ih := abs_le_amax src n
    unfold amax
    dsimp only
    rcases Nat.lt_succ_iff_lt_or_eq.1 hi with hlt | rfl
    · split
      · next hgt => exact (ih i hlt).trans hgt.le
      · exact ih i hlt
    · split
      · exact le_refl _
      · next hle => exact not_lt.1 hle

theorem amax_mem (src : Nat → K) : ∀ (n : Nat), amax src n = 0 ∨ ∃ i < n, |src i| = amax src n
  | 0 => .inl rfl
  | n + 1 => by
    unfold amax
    dsimp only
    split
    · exact .inr ⟨n, Nat.lt_succ_self n, rfl⟩
    · exact (amax_mem src n).imp_right fun ⟨i, hi, heq⟩ => ⟨i, Nat.lt_succ_of_lt hi, heq⟩

variable [IsStrictOrderedRing K]

theorem tiny_pos : (0 : K) < tiny := by
  unfold tiny
  positivity

theorem amax_eq {src : Nat → K} {dim : Nat} {m : K} (h : IsLargest src dim m) : amax src dim = m := by
  obtain ⟨i, hi, hm⟩ := h.mem
  have hle : m ≤ amax src dim := hm ▸ abs_le_amax src dim i hi
  refine le_antisymm ?_ hle
  rcases amax_mem src dim with hzero | ⟨j, hj, hmax⟩
  · rw [hzero, ← hm]
    exact abs_nonneg _
  · exact hmax ▸ h.le j hj

end

/-! ## The codes -/

section

variable {K : Type} [Field K] [LinearOrder K] [IsStrictOrderedRing K] [FloorRing K]

/-- A number that is not negative is rounded by a floor. -/
theorem floor_half_spec {levels : Nat} {v : K} (hpos : 0 ≤ v) (hv : v ≤ levels) :
    0 ≤ ⌊v + 1 / 2⌋ ∧ ⌊v + 1 / 2⌋ ≤ (levels : Int) ∧ |v - ⌊v + 1 / 2⌋| ≤ 1 / 2 := by
  have hfloor := Int.floor_le (v + 1 / 2)
  have hfloor' := Int.lt_floor_add_one (v + 1 / 2)
  have hupper : ⌊v + 1 / 2⌋ < (levels : Int) + 1 := by
    have hcast : (⌊v + 1 / 2⌋ : K) < ((levels : Int) + 1 : Int) := by
      push_cast
      linarith
    exact_mod_cast hcast
  refine ⟨Int.floor_nonneg.2 (by linarith), by omega, ?_⟩
  rw [abs_le]
  constructor <;> linarith

/-- A negative number is rounded as its absolute value is. -/
theorem ceil_half_spec {levels : Nat} {v : K} (hneg : v ≤ 0) (hv : -(levels : K) ≤ v) :
    -(levels : Int) ≤ ⌈v + -(1 / 2)⌉ ∧ ⌈v + -(1 / 2)⌉ ≤ 0 ∧ |v - ⌈v + -(1 / 2)⌉| ≤ 1 / 2 := by
  have hceil : ⌊-v + 1 / 2⌋ = -⌈v + -(1 / 2)⌉ := by
    rw [← Int.floor_neg, neg_add, neg_neg]
  have hspec := floor_half_spec (neg_nonneg.2 hneg) (neg_le.1 hv)
  rw [hceil] at hspec
  obtain ⟨hlo, hhi, herr⟩ := hspec
  refine ⟨by omega, by omega, ?_⟩
  rw [← abs_neg, neg_sub', ← Int.cast_neg]
  exact herr

/-- The clamps are never needed, and the code is the nearest one. -/
theorem quantized_spec {levels : Nat} {v : K} (hv : |v| ≤ levels) :
    -(levels : Int) ≤ quantized levels v ∧ quantized levels v ≤ levels ∧ |v - quantized levels v| ≤ 1 / 2 := by
  obtain ⟨hlo, hhi⟩ := abs_le.1 hv
  have hround : -(levels : Int) ≤ trunc (v + if v ≥ 0 then 1 / 2 else -(1 / 2)) ∧
      trunc (v + if v ≥ 0 then 1 / 2 else -(1 / 2)) ≤ levels ∧
        |v - trunc (v + if v ≥ 0 then 1 / 2 else -(1 / 2))| ≤ 1 / 2 := by
    unfold trunc
    by_cases hpos : v ≥ 0
    · obtain ⟨hzero, hupper, herr⟩ := floor_half_spec hpos hhi
      rw [if_pos hpos, if_pos (by linarith)]
      exact ⟨by omega, hupper, herr⟩
    · obtain ⟨hlower, hzero, herr⟩ := ceil_half_spec (not_le.1 hpos).le hlo
      rw [if_neg hpos, if_neg (by linarith)]
      exact ⟨hlower, by omega, herr⟩
  obtain ⟨h1, h2, h3⟩ := hround
  unfold quantized
  rw [Nat.cast_ofNat]
  dsimp only
  rw [if_neg (not_lt.2 h2), if_neg (not_lt.2 h1)]
  exact ⟨h1, h2, h3⟩

/-- A number and its code times the scale. -/
theorem quantized_error {levels : Nat} {x m : K} (hlevels : 0 < levels) (hm : 0 < m) (hx : |x| ≤ m) :
    |x * (levels / m)| ≤ levels ∧ |x - quantized levels (x * (levels / m)) * (m / levels)| ≤ m / levels / 2 := by
  have hpos : (0 : K) < levels := by exact_mod_cast hlevels
  have hscale : 0 < m / levels := div_pos hm hpos
  have hv : |x * (levels / m)| ≤ levels := by
    rw [abs_mul, abs_of_pos (div_pos hpos hm)]
    calc |x| * (levels / m) ≤ m * (levels / m) := mul_le_mul_of_nonneg_right hx (div_pos hpos hm).le
      _ = levels := by field_simp
  refine ⟨hv, ?_⟩
  obtain ⟨-, -, herr⟩ := quantized_spec hv
  have hback : x = x * (levels / m) * (m / levels) := by field_simp
  calc |x - quantized levels (x * (levels / m)) * (m / levels)|
      = |(x * (levels / m) - quantized levels (x * (levels / m))) * (m / levels)| := by
        rw [sub_mul, ← hback]
    _ = |x * (levels / m) - quantized levels (x * (levels / m))| * (m / levels) := by rw [abs_mul, abs_of_pos hscale]
    _ ≤ 1 / 2 * (m / levels) := mul_le_mul_of_nonneg_right herr hscale.le
    _ = m / levels / 2 := by ring

end

/-! ## Eight bits -/

section

variable {K : Type} [Field K] [LinearOrder K] [IsStrictOrderedRing K] [FloorRing K]

theorem code8_spec {src : Nat → K} {dim i : Nat} {m : K} (h : IsLargest src dim m) (hi : i < dim) :
    -127 ≤ code8 src dim i ∧ code8 src dim i ≤ 127 := by
  unfold code8
  rw [amax_eq h]
  split
  · decide
  · next hm =>
    have hpos : 0 < m := tiny_pos.trans_le (not_lt.1 hm)
    have hscaled := (@quantized_error K _ _ _ _ 127 _ _ (by decide) hpos (h.le i hi)).1
    have hspec := quantized_spec hscaled
    push_cast at hspec
    exact ⟨hspec.1, hspec.2.1⟩

theorem stores_8bit {src : Nat → K} {dim : Nat} {m : K} (h : IsLargest src dim m) :
    (kvCompressTo8bit src dim).stores = (List.range dim).map fun i => (i, code8 src dim i) := by
  unfold kvCompressTo8bit
  dsimp only
  split
  · next hm => exact List.map_congr_left fun i _ => by rw [code8, if_pos hm]
  · next hm =>
    refine List.map_congr_left fun i hi => ?_
    have hcode := code8_spec h (List.mem_range.1 hi)
    have heq : code8 src dim i = quantized 127 (src i * ((127 : Nat) / amax src dim)) := if_neg hm
    rw [← heq, wrap_eq (w := 7) (by omega) (by omega)]

theorem array_8bit {src : Nat → K} {dim i : Nat} {m : K} (h : IsLargest src dim m) (old : Nat → Int) (hi : i < dim) :
    (kvCompressTo8bit src dim).array old i = code8 src dim i := by
  unfold Compressed.array
  rw [stores_8bit h, stored_map_range, if_pos hi]
  rfl

/-- What the vector is after the compression to eight bits and back: which cells are written and read, and how far a
number may be off. -/
structure Bounded8 (src : Nat → K) (dim : Nat) (m : K) (old : Nat → Int) : Prop where
  codes : ∀ a v, (a, v) ∈ (kvCompressTo8bit src dim).stores → a < dim ∧ -127 ≤ v ∧ v ≤ 127
  written : ∀ a < dim, ∃ v, (a, v) ∈ (kvCompressTo8bit src dim).stores
  reads : ∀ a ∈ (kvDecompressFrom8bit ((kvCompressTo8bit src dim).array old) (kvCompressTo8bit src dim).scale dim).reads, a < dim
  error : ∀ i < dim, ∃ y, stored (kvDecompressFrom8bit ((kvCompressTo8bit src dim).array old)
      (kvCompressTo8bit src dim).scale dim).stores i = some y ∧
    (tiny ≤ m → |src i - y| ≤ (kvCompressTo8bit src dim).scale / 2) ∧ (m < tiny → |src i - y| < tiny)
  rest : ∀ i, dim ≤ i → stored (kvDecompressFrom8bit ((kvCompressTo8bit src dim).array old)
    (kvCompressTo8bit src dim).scale dim).stores i = none

theorem bounded8 {src : Nat → K} {dim : Nat} {m : K} (h : IsLargest src dim m) (old : Nat → Int) : Bounded8 src dim m old where
  codes a v hmem := by
    rw [stores_8bit h] at hmem
    obtain ⟨i, hi, heq⟩ := List.mem_map.1 hmem
    cases heq
    exact ⟨List.mem_range.1 hi, code8_spec h (List.mem_range.1 hi)⟩
  written a ha := by
    rw [stores_8bit h]
    exact ⟨_, List.mem_map.2 ⟨a, List.mem_range.2 ha, rfl⟩⟩
  reads a ha := List.mem_range.1 ha
  error i hi := by
    refine ⟨_, (stored_map_range _ dim i).trans (if_pos hi), ?_, ?_⟩
    · intro hm
      have hpos : 0 < m := tiny_pos.trans_le hm
      have herr := (@quantized_error K _ _ _ _ 127 _ _ (by decide) hpos (h.le i hi)).2
      rw [array_8bit h old hi, scale_8bit, code8, amax_eq h, if_neg (not_lt.2 hm), if_neg (not_lt.2 hm)]
      exact_mod_cast herr
    · intro hm
      rw [array_8bit h old hi, scale_8bit, code8, amax_eq h, if_pos hm, if_pos hm, mul_zero, sub_zero]
      exact (h.le i hi).trans_lt hm
  rest i hi := (stored_map_range _ dim i).trans (if_neg (not_lt.2 hi))

end

/-! ## Unpacking -/

section

variable {K : Type} [Field K]

/-- The stores of the unpacked numbers, two for each byte and one for a last byte that is half full. -/
theorem stored_unpacked (src : Nat → Int) (scale : K) (dim i : Nat) :
    stored (kvDecompressFrom4bit src scale dim).stores i =
      if i < dim then
        some ((((if i % 2 = 0 then (src (i / 2)).toNat &&& 0x0F else (src (i / 2)).toNat >>> 4 : Nat) : Int) - 8 : Int) * scale)
      else none := by
  have hmem : ∀ a y, (a, y) ∈ (kvDecompressFrom4bit src scale dim).stores ↔ a < dim ∧
      y = (((if a % 2 = 0 then (src (a / 2)).toNat &&& 0x0F else (src (a / 2)).toNat >>> 4 : Nat) : Int) - 8 : Int) * scale := by
    intro a y
    unfold kvDecompressFrom4bit
    rw [List.mem_flatMap]
    constructor
    · rintro ⟨k, hk, hmem⟩
      have hk := List.mem_range.1 hk
      rcases List.mem_cons.1 hmem with heq | htail
      · cases heq
        refine ⟨by omega, ?_⟩
        rw [if_pos (by omega)]
      · split at htail
        · next hlt =>
          cases List.mem_singleton.1 htail
          refine ⟨hlt, ?_⟩
          rw [if_neg (by omega), show (2 * k + 1) / 2 = 2 * k / 2 by omega]
        · cases htail
    · rintro ⟨ha, rfl⟩
      refine ⟨a / 2, List.mem_range.2 (by omega), ?_⟩
      by_cases hpar : a % 2 = 0
      · have hdouble : 2 * (a / 2) = a := by omega
        rw [if_pos hpar, hdouble]
        exact List.mem_cons_self
      · have hdouble : 2 * (a / 2) + 1 = a := by omega
        have hhalf : 2 * (a / 2) / 2 = a / 2 := by omega
        dsimp only
        rw [if_neg hpar, hdouble, if_pos ha, hhalf]
        exact List.mem_cons_of_mem _ (List.mem_singleton.2 rfl)
  split
  · next hi => exact stored_eq_of_mem ((hmem i _).2 ⟨hi, rfl⟩) fun y hy => ((hmem i y).1 hy).2
  · next hi => exact stored_eq_none fun y hy => hi ((hmem i y).1 hy).1

end

/-! ## Four bits -/

/-- Two codes in a byte. -/
theorem nibbles_of_byte {u v : Nat} (hu : u < 16) (hv : v < 16) :
    ((v <<< 4) ||| (u &&& 0x0F)) % 256 &&& 0x0F = u ∧ (((v <<< 4) ||| (u &&& 0x0F)) % 256) >>> 4 = v := by
  have hall : ∀ u < 16, ∀ v < 16,
      ((v <<< 4) ||| (u &&& 0x0F)) % 256 &&& 0x0F = u ∧ (((v <<< 4) ||| (u &&& 0x0F)) % 256) >>> 4 = v := by decide +kernel
  exact hall u hu v hv

section

variable {K : Type} [Field K] [LinearOrder K] [IsStrictOrderedRing K] [FloorRing K]

theorem code4_spec {src : Nat → K} {dim i : Nat} {m : K} (h : IsLargest src dim m) (hi : i < dim) :
    1 ≤ code4 src dim i ∧ code4 src dim i ≤ 15 ∧
      (¬ m < tiny → (code4 src dim i : Int) - 8 = quantized 7 (src i * (7 / m))) := by
  unfold code4
  rw [amax_eq h]
  split
  · next hm => exact ⟨by decide, by decide, fun hno => absurd hm hno⟩
  · next hm =>
    have hpos : 0 < m := tiny_pos.trans_le (not_lt.1 hm)
    have hscaled := (@quantized_error K _ _ _ _ 7 _ _ (by decide) hpos (h.le i hi)).1
    have hspec := quantized_spec hscaled
    push_cast at hspec
    unfold nibbleCode
    omega

theorem upperCode_spec {src : Nat → K} {dim : Nat} {m : K} (h : IsLargest src dim m) (i : Nat) :
    1 ≤ upperCode src dim i ∧ upperCode src dim i ≤ 15 := by
  unfold upperCode
  split
  · next hi =>
    have hcode := code4_spec h hi
    exact ⟨hcode.1, hcode.2.1⟩
  · decide

theorem byte4_nibbles {src : Nat → K} {dim k : Nat} {m : K} (h : IsLargest src dim m) (hk : k < (dim + 1) / 2) :
    byte4 src dim k &&& 0x0F = code4 src dim (2 * k) ∧ byte4 src dim k >>> 4 = upperCode src dim (2 * k) := by
  have hlow := code4_spec h (i := 2 * k) (by omega)
  have hhigh := upperCode_spec h (2 * k)
  exact nibbles_of_byte (by omega) (by omega)

/-- What the vector is after the compression to four bits and back: which cells are written and read, what the two nibbles
of a byte hold, and how far a number may be off. -/
structure Bounded4 (src : Nat → K) (dim : Nat) (m : K) (old : Nat → Int) : Prop where
  codes : ∀ a v, (a, v) ∈ (kvCompressTo4bit src dim).stores → a < (dim + 1) / 2 ∧ 0 ≤ v ∧ v < 256 ∧
    1 ≤ v.toNat &&& 0x0F ∧ v.toNat &&& 0x0F ≤ 15 ∧ 1 ≤ v.toNat >>> 4 ∧ v.toNat >>> 4 ≤ 15
  written : ∀ a < (dim + 1) / 2, ∃ v, (a, v) ∈ (kvCompressTo4bit src dim).stores ∧
    v.toNat &&& 0x0F = code4 src dim (2 * a) ∧ v.toNat >>> 4 = upperCode src dim (2 * a)
  reads : ∀ a ∈ (kvDecompressFrom4bit ((kvCompressTo4bit src dim).array old) (kvCompressTo4bit src dim).scale dim).reads,
    a < (dim + 1) / 2
  error : ∀ i < dim, ∃ y, stored (kvDecompressFrom4bit ((kvCompressTo4bit src dim).array old)
      (kvCompressTo4bit src dim).scale dim).stores i = some y ∧
    (tiny ≤ m → |src i - y| ≤ (kvCompressTo4bit src dim).scale / 2) ∧ (m < tiny → |src i - y| < tiny)
  rest : ∀ i, dim ≤ i → stored (kvDecompressFrom4bit ((kvCompressTo4bit src dim).array old)
    (kvCompressTo4bit src dim).scale dim).stores i = none

/-- What is read of the array at an index. -/
theorem unpacked_code {src : Nat → K} {dim i : Nat} {m : K} (h : IsLargest src dim m) (old : Nat → Int) (hi : i < dim) :
    (if i % 2 = 0 then ((kvCompressTo4bit src dim).array old (i / 2)).toNat &&& 0x0F
      else ((kvCompressTo4bit src dim).array old (i / 2)).toNat >>> 4) = code4 src dim i := by
  obtain ⟨hlow, hhigh⟩ := byte4_nibbles h (k := i / 2) (by omega)
  rw [array_4bit src old (by omega), Int.toNat_natCast, hlow, hhigh]
  split
  · rw [show 2 * (i / 2) = i by omega]
  · unfold upperCode
    rw [show 2 * (i / 2) + 1 = i by omega, if_pos hi]

theorem bounded4 {src : Nat → K} {dim : Nat} {m : K} (h : IsLargest src dim m) (old : Nat → Int) : Bounded4 src dim m old where
  codes a v hmem := by
    rw [stores_4bit] at hmem
    obtain ⟨k, hk, heq⟩ := List.mem_map.1 hmem
    cases heq
    have ha := List.mem_range.1 hk
    obtain ⟨hlow, hhigh⟩ := byte4_nibbles h ha
    have hlow' := code4_spec h (i := 2 * a) (by omega)
    have hhigh' := upperCode_spec h (2 * a)
    have hlt : byte4 src dim a < 256 := Nat.mod_lt _ (by decide)
    rw [Int.toNat_natCast, hlow, hhigh]
    omega
  written a ha := by
    rw [stores_4bit]
    refine ⟨_, List.mem_map.2 ⟨a, List.mem_range.2 ha, rfl⟩, ?_⟩
    rw [Int.toNat_natCast]
    exact byte4_nibbles h ha
  reads a ha := by
    obtain ⟨k, hk, rfl⟩ := List.mem_map.1 ha
    have hk := List.mem_range.1 hk
    omega
  error i hi := by
    have hcode := code4_spec h hi
    refine ⟨_, (stored_unpacked _ _ dim i).trans (if_pos hi), ?_, ?_⟩
    · intro hm
      have hno : ¬ m < tiny := not_lt.2 hm
      have hpos : 0 < m := tiny_pos.trans_le hm
      have herr := (@quantized_error K _ _ _ _ 7 _ _ (by decide) hpos (h.le i hi)).2
      rw [unpacked_code h old hi, hcode.2.2 hno, scale_4bit, amax_eq h, if_neg hno]
      exact_mod_cast herr
    · intro hm
      rw [scale_4bit, amax_eq h, if_pos hm, mul_zero, sub_zero]
      exact (h.le i hi).trans_lt hm
  rest i hi := (stored_unpacked _ _ dim i).trans (if_neg (not_lt.2 hi))

/-- Both formats keep every number to half a step of their scale, whatever the cells held before. -/
theorem compress_error {src : Nat → K} {dim : Nat} {m : K} (h : IsLargest src dim m) (old : Nat → Int) :
    Bounded8 src dim m old ∧ Bounded4 src dim m old := ⟨bounded8 h old, bounded4 h old⟩

end

theorem compress_error_three : Bounded4 (fun i => (i : ℚ) - 2) 3 2 fun _ => 0 :=
  (@compress_error ℚ _ _ _ _ (fun i => (i : ℚ) - 2) 3 2
    ⟨by intro i hi; interval_cases i <;> norm_num, 0, by decide, by norm_num⟩ fun _ => 0).2

end BitForge.Kv
