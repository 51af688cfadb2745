/-
Ternary weights packed four to a byte, `unpack.h` and `unpack_avx2.c`. Arrays are functions of the address; what is read is
logged, and what is written is a list of stores.
-/
import BitForge.Lib.Simd
import BitForge.Lib.Writes

namespace BitForge.Unpack

open BitForge.Lib.Simd BitForge.Lib.Writes

/-! ## One weight -/

def unpackTernary (packed : Nat → UInt8) (index : Nat) : Int :=
  let byte := (packed (index >>> 2)).toNat
  let shift := (index &&& 3) <<< 1
  ((byte >>> shift) &&& 0x03 : Nat) - 1

def packTernary (packed : Nat → UInt8) (index : Nat) (value : Int) : Nat → UInt8 :=
  let byteIdx := index >>> 2
  let shift := (index &&& 3) <<< 1
  let encoded := ((value + 1) % 256).toNat
  fun k => if k = byteIdx then packed k ||| UInt8.ofNat (encoded <<< shift) else packed k

/-- `packed_bytes` -/
def packedBytes (count : Nat) : Nat := (count + 3) >>> 2

/-! ## `unpack_ternary_block_avx2` -/

/-- The bytes that are read, and the stores. -/
structure Trace where
  reads : List Nat
  stores : List (Nat × Int)

def Trace.append (t u : Trace) : Trace := ⟨t.reads ++ u.reads, t.stores ++ u.stores⟩

def expandLo (i : Nat) : Nat := [0, 0, 0, 0, 1, 1, 1, 1, 2, 2, 2, 2, 3, 3, 3, 3].getD i 0

def expandHi (i : Nat) : Nat := [4, 4, 4, 4, 5, 5, 5, 5, 6, 6, 6, 6, 7, 7, 7, 7].getD i 0

/-- A mask of four bytes that is repeated. -/
def maskOf (bytes : List Nat) (i : Nat) : Nat := bytes.getD (i % 4) 0

/-- `result`, from the eight bytes at `byteOffset`. -/
def vectorResult (packed : Nat → UInt8) (byteOffset : Nat) : Nat → Int :=
  let raw8 := fun i => if i < 8 then (packed (byteOffset + i)).toNat else 0
  let expanded := setM128i (shuffleEpi8 raw8 expandHi) (shuffleEpi8 raw8 expandLo)
  let f0 := andSet1 expanded 0x03
  let f1 := andSet1 (srliEpi16 expanded 2) 0x03
  let f2 := andSet1 (srliEpi16 expanded 4) 0x03
  let f3 := andSet1 (srliEpi16 expanded 6) 0x03
  let result := blendvEpi8 f0 f1 (maskOf [0x00, 0xFF, 0x00, 0x00])
  let result := blendvEpi8 result f2 (maskOf [0x00, 0x00, 0xFF, 0x00])
  let result := blendvEpi8 result f3 (maskOf [0x00, 0x00, 0x00, 0xFF])
  subEpi8 result fun _ => 1

/-- One round of the vector loop: eight bytes are loaded and 32 are stored. -/
def vectorRound (packed : Nat → UInt8) (i : Nat) : Trace :=
  ⟨(List.range 8).map (i >>> 2 + ·), storesAt i ((List.range 32).map (vectorResult packed (i >>> 2)))⟩

/-- The scalar tail. -/
def scalarTail (packed : Nat → UInt8) (i count : Nat) : Trace :=
  if i < count then
    Trace.append ⟨[i >>> 2], [(i, unpackTernary packed i)]⟩ (scalarTail packed (i + 1) count)
  else ⟨[], []⟩
termination_by count - i

def unpackFrom (packed : Nat → UInt8) (i count : Nat) : Trace :=
  if i + 31 < count then (vectorRound packed i).append (unpackFrom packed (i + 32) count) else scalarTail packed i count
termination_by count - i

def unpackTernaryBlockAvx2 (packed : Nat → UInt8) (count : Nat) : Trace := unpackFrom packed 0 count

/-! ## Fields of a byte -/

theorem unpackTernary_eq (packed : Nat → UInt8) (index : Nat) :
    unpackTernary packed index = ((packed (index / 4)).toNat / 4 ^ (index % 4) % 4 : Nat) - 1 := by
  have hindex : index &&& 3 = index % 4 := Nat.and_two_pow_sub_one_eq_mod index 2
  have hmask : ∀ x, x &&& 0x03 = x % 4 := fun x => Nat.and_two_pow_sub_one_eq_mod x 2
  unfold unpackTernary
  dsimp only
  rw [hindex, hmask, Nat.shiftLeft_eq, Nat.shiftRight_eq_div_pow, Nat.shiftRight_eq_div_pow, Nat.mul_comm, pow_mul]
  norm_num

/-- A lane of the vector body: every field is shifted down in all bytes, and the blends take from each its own. -/
theorem vectorResult_eq (packed : Nat → UInt8) (off : Nat) {j : Nat} (hj : j < 32) :
    vectorResult packed off j = ((packed (off + j / 4)).toNat / 4 ^ (j % 4) % 4 : Nat) - 1 := by
  let raw8 := fun i => if i < 8 then (packed (off + i)).toNat else 0
  let expanded := setM128i (shuffleEpi8 raw8 expandHi) (shuffleEpi8 raw8 expandLo)
  have hraw : ∀ i, raw8 i < 256 := by
    intro i
    dsimp only [raw8]
    split
    · exact UInt8.toNat_lt _
    · decide
  have hlt : ∀ i, expanded i < 256 := by
    intro i
    dsimp only [expanded]
    unfold setM128i shuffleEpi8
    split_ifs
    · exact hraw _
    · decide
    · exact hraw _
    · decide
  have hlo : ∀ i < 16, expandLo i = i / 4 := by decide
  have hhi : ∀ i < 16, expandHi i = 4 + i / 4 := by decide
  -- the byte is replicated to its four lanes
  have hbyte : expanded j = (packed (off + j / 4)).toNat := by
    dsimp only [expanded]
    unfold setM128i
    split
    · next hlow =>
      rw [shuffleEpi8_eq (hlo j hlow) (by omega), show 16 * (j / 16) + j / 4 % 16 = j / 4 by omega]
      exact if_pos (by omega)
    · rw [shuffleEpi8_eq (hhi (j - 16) (by omega)) (by omega),
        show 16 * ((j - 16) / 16) + (4 + (j - 16) / 4) % 16 = j / 4 by omega]
      exact if_pos (by omega)
  have hfield : ∀ k < 4, andSet1 (srliEpi16 expanded (2 * k)) 3 j = (packed (off + j / 4)).toNat / 4 ^ k % 4 := by
    intro k hk
    rw [srliEpi16_and hlt hk, hbyte]
  have hfirst : andSet1 expanded 3 j = (packed (off + j / 4)).toNat / 4 ^ 0 % 4 := by
    rw [andSet1_three, hbyte, pow_zero, Nat.div_one]
  have hsub : ∀ x : Nat, wrap 8 (((x % 4 : Nat) : Int) - 1) = ((x % 4 : Nat) : Int) - 1 := fun x => wrap_eq (by omega) (by omega)
  show wrap 8 ((blendvEpi8 (blendvEpi8 (blendvEpi8 (andSet1 expanded 3) (andSet1 (srliEpi16 expanded (2 * 1)) 3) _)
    (andSet1 (srliEpi16 expanded (2 * 2)) 3) _) (andSet1 (srliEpi16 expanded (2 * 3)) 3) _ j : Int) - 1) = _
  unfold blendvEpi8 maskOf
  rw [hfield 1 (by decide), hfield 2 (by decide), hfield 3 (by decide), hfirst]
  rcases (show j % 4 = 0 ∨ j % 4 = 1 ∨ j % 4 = 2 ∨ j % 4 = 3 by omega) with h | h | h | h <;> rw [h] <;> exact hsub _

/-! ## The loops -/

/-- The trace writes the weights from `i` up to `count` and nothing else, out of the packed bytes of `count` weights. -/
structure Fills (packed : Nat → UInt8) (i count : Nat) (t : Trace) : Prop where
  stores : ∀ a, stored t.stores a = if i ≤ a ∧ a < count then some (unpackTernary packed a) else none
  reads : ∀ b ∈ t.reads, b < packedBytes count

section

variable {packed : Nat → UInt8} {i k count : Nat}

theorem lt_packedBytes {b count : Nat} : b < packedBytes count ↔ 4 * b < count := by
  unfold packedBytes
  rw [Nat.shiftRight_eq_div_pow]
  omega

theorem Fills.nil (h : count ≤ i) : Fills packed i count ⟨[], []⟩ where
  stores a := by
    rw [if_neg (by omega)]
    rfl
  reads := nofun

/-- The weights up to `k` first, then the ones from there on. -/
theorem Fills.append {t u : Trace} (hik : i ≤ k) (hk : k ≤ count)
    (ht : ∀ a, stored t.stores a = if i ≤ a ∧ a < k then some (unpackTernary packed a) else none)
    (hreads : ∀ b ∈ t.reads, b < packedBytes count) (hu : Fills packed k count u) : Fills packed i count (t.append u) where
  stores a := by
    unfold Trace.append
    rw [stored_append, hu.stores, ht]
    by_cases hka : k ≤ a
    · rw [if_neg (show ¬(i ≤ a ∧ a < k) by omega), Option.or_none]
      exact if_congr (by omega) rfl rfl
    · rw [if_neg (show ¬(k ≤ a ∧ a < count) by omega), Option.none_or]
      exact if_congr (by omega) rfl rfl
  reads b hb := (List.mem_append.1 hb).elim (hreads b) (hu.reads b)

theorem scalarTail_fills (packed : Nat → UInt8) (i count : Nat) : Fills packed i count (scalarTail packed i count) := by
  induction i using scalarTail.induct count with
  | case1 i hlt ih =>
    rw [scalarTail, if_pos hlt]
    refine Fills.append (Nat.le_succ i) hlt ?_ ?_ ih
    · intro a
      unfold stored stored
      rw [Option.none_or]
      by_cases ha : a = i
      · rw [if_pos ha, if_pos (by omega), ha]
      · rw [if_neg ha, if_neg (by omega)]
    · intro b hb
      rw [List.mem_singleton.1 hb, lt_packedBytes, Nat.shiftRight_eq_div_pow]
      omega
  | case2 i hge =>
    rw [scalarTail, if_neg hge]
    exact .nil (by omega)

theorem vectorRound_stores (packed : Nat → UInt8) (hi : i % 4 = 0) (a : Nat) :
    stored (vectorRound packed i).stores a = if i ≤ a ∧ a < i + 32 then some (unpackTernary packed a) else none := by
  unfold vectorRound
  dsimp only
  by_cases ha : i ≤ a ∧ a < i + 32
  · obtain ⟨j, rfl⟩ := Nat.exists_eq_add_of_le ha.1
    have hj : j < 32 := by omega
    rw [if_pos ha, stored_storesAt, List.getElem?_map, List.getElem?_range hj, Option.map_some, vectorResult_eq packed _ hj,
      unpackTernary_eq, Nat.shiftRight_eq_div_pow, show i / 2 ^ 2 + j / 4 = (i + j) / 4 by omega, show j % 4 = (i + j) % 4 by omega]
  · rw [if_neg ha, stored_eq_none]
    intro v hv
    have hmem := mem_storesAt hv
    rw [List.length_map, List.length_range] at hmem
    omega

theorem unpackFrom_fills (packed : Nat → UInt8) (i count : Nat) (hi : i % 4 = 0) : Fills packed i count (unpackFrom packed i count) := by
  induction i using unpackFrom.induct count with
  | case1 i hlt ih =>
    rw [unpackFrom, if_pos hlt]
    refine Fills.append (Nat.le_add_right i 32) hlt (vectorRound_stores packed hi) ?_ (ih (by omega))
    intro b hb
    obtain ⟨t, ht, rfl⟩ := List.mem_map.1 hb
    have hlt8 := List.mem_range.1 ht
    rw [lt_packedBytes, Nat.shiftRight_eq_div_pow]
    omega
  | case2 i hge =>
    rw [unpackFrom, if_neg hge]
    exact scalarTail_fills packed i count

end

/-! ## Packing -/

/-- The weights that are packed. -/
def IsTernary (v : Int) : Prop := v = -1 ∨ v = 0 ∨ v = 1

/-- The array of zeros, with the weights of the indices packed in their order. -/
def packAll (values : Nat → Int) (order : List Nat) : Nat → UInt8 :=
  order.foldl (fun packed index => packTernary packed index (values index)) fun _ => 0

/-- A two-bit field that is set where all was zero. -/
theorem or_field {byte : UInt8} {m e m' : Nat} (hm : m < 4) (he : e < 3) (hm' : m' < 4) (hzero : byte.toNat / 4 ^ m % 4 = 0) :
    (byte ||| UInt8.ofNat (e <<< (m <<< 1))).toNat / 4 ^ m' % 4 = if m' = m then e else byte.toNat / 4 ^ m' % 4 := by
  have hall : ∀ b < 256, ∀ m < 4, ∀ e < 3, ∀ m' < 4, b / 4 ^ m % 4 = 0 →
      (UInt8.ofNat b ||| UInt8.ofNat (e <<< (m <<< 1))).toNat / 4 ^ m' % 4 = if m' = m then e else b / 4 ^ m' % 4 := by
    decide +kernel
  have hbyte := hall byte.toNat byte.toNat_lt m hm e he m' hm' hzero
  rwa [UInt8.ofNat_toNat] at hbyte

/-- The field `index` of an array. -/
def field (packed : Nat → UInt8) (index : Nat) : Nat := (packed (index / 4)).toNat / 4 ^ (index % 4) % 4

theorem field_packTernary {packed : Nat → UInt8} {index : Nat} {v : Int} (hv : IsTernary v) (hzero : field packed index = 0)
    (j : Nat) : field (packTernary packed index v) j = if j = index then (v + 1).toNat else field packed j := by
  have hindex : index &&& 3 = index % 4 := Nat.and_two_pow_sub_one_eq_mod index 2
  have henc : ((v + 1) % 256).toNat = (v + 1).toNat := by rcases hv with rfl | rfl | rfl <;> rfl
  have hlt : (v + 1).toNat < 3 := by rcases hv with rfl | rfl | rfl <;> decide
  unfold field packTernary at *
  rw [hindex, henc, Nat.shiftRight_eq_div_pow]
  by_cases hbyte : j / 4 = index / 2 ^ 2
  · have hsame : index / 4 = j / 4 := by omega
    rw [hsame] at hzero
    rw [if_pos hbyte, or_field (Nat.mod_lt _ (by decide)) hlt (Nat.mod_lt _ (by decide)) hzero]
    exact if_congr (by omega) rfl rfl
  · rw [if_neg hbyte, if_neg (by omega)]

/-- Packing in any order without repetition leaves each field to its own weight. -/
theorem field_foldl {values : Nat → Int} : ∀ {order : List Nat} {packed : Nat → UInt8}, order.Nodup →
    (∀ j ∈ order, IsTernary (values j)) → (∀ j ∈ order, field packed j = 0) → ∀ j,
      field (order.foldl (fun packed index => packTernary packed index (values index)) packed) j =
        if j ∈ order then (values j + 1).toNat else field packed j
  | [], _, _, _, _, _ => by simp
  | index :: order, packed, hnodup, hvalues, hzero, j => by
    obtain ⟨hnot, hrest⟩ := List.nodup_cons.1 hnodup
    have hpack := @field_packTernary packed index _ (hvalues index List.mem_cons_self) (hzero index List.mem_cons_self)
    have hstill : ∀ k ∈ order, field (packTernary packed index (values index)) k = 0 := by
      intro k hk
      rw [hpack, if_neg (by rintro rfl; exact hnot hk)]
      exact hzero k (List.mem_cons_of_mem _ hk)
    rw [List.foldl_cons, field_foldl hrest (fun k hk => hvalues k (List.mem_cons_of_mem _ hk)) hstill, hpack]
    by_cases hj : j = index
    · subst hj
      rw [if_neg hnot, if_pos rfl, if_pos List.mem_cons_self]
    · rw [if_neg hj]
      exact if_congr (by simp [hj]) rfl rfl

theorem unpackTernary_packAll {values : Nat → Int} {order : List Nat} {n : Nat} (hvalues : ∀ j < n, IsTernary (values j))
    (horder : order.Perm (List.range n)) {j : Nat} (hj : j < n) : unpackTernary (packAll values order) j = values j := by
  have hmem : ∀ k, k ∈ order ↔ k < n := fun k => horder.mem_iff.trans List.mem_range
  have hfield := @field_foldl values order (fun _ => 0) (horder.nodup_iff.2 List.nodup_range)
    (fun k hk => hvalues k ((hmem k).1 hk)) (fun k _ => by simp [field]) j
  rw [unpackTernary_eq]
  show ((field (packAll values order) j : Nat) : Int) - 1 = _
  unfold packAll
  rw [hfield, if_pos ((hmem j).2 hj)]
  rcases hvalues j hj with h | h | h <;> rw [h] <;> rfl

/-- The vector body writes what the scalar one would, nothing else, and reads only the packed bytes; what is packed in any
order is unpacked again. -/
theorem unpackTernaryBlockAvx2_eq (packed : Nat → UInt8) (count : Nat) :
    ((∀ i, stored (unpackTernaryBlockAvx2 packed count).stores i = if i < count then some (unpackTernary packed i) else none) ∧
      ∀ b ∈ (unpackTernaryBlockAvx2 packed count).reads, b < packedBytes count) ∧
      ∀ (values : Nat → Int) (order : List Nat), (∀ j < count, IsTernary (values j)) → order.Perm (List.range count) →
        ∀ j < count, unpackTernary (packAll values order) j = values j := by
  have hfills := unpackFrom_fills packed 0 count rfl
  refine ⟨⟨fun i => (hfills.stores i).trans (if_congr (by omega) rfl rfl), hfills.reads⟩, ?_⟩
  intro values order hvalues horder j hj
  exact unpackTernary_packAll hvalues horder hj

theorem unpackTernaryBlockAvx2_eq_five :
    ∀ j < 5, unpackTernary (packAll (fun j => (j : Int) % 3 - 1) [3, 0, 4, 2, 1]) j = (j : Int) % 3 - 1 :=
  (unpackTernaryBlockAvx2_eq (fun _ => 0) 5).2 _ _ (by unfold IsTernary; decide) (by decide)

end BitForge.Unpack
