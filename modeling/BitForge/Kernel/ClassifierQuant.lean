/-
The quantized classifier: `weights_build_classifier_quant`, which writes 8-bit and 4-bit codes with a scale for each block
of 32, and `matmul_i8_task` and `matmul_i4_task`, which read them back. The float operations are those of any arithmetic.
-/
import BitForge.Lib.Bytes
import BitForge.Lib.Ieee
import BitForge.Lib.Simd
import BitForge.Lib.Writes

namespace BitForge.ClassifierQuant

open BitForge.Lib BitForge.Lib.Simd BitForge.Lib.Writes

/-- The float operations of the builder and the kernels. Nothing is assumed of them; a conversion that C leaves undefined
gives some integer. -/
structure FloatOps (F : Type) where
  ofBits : Nat → F
  lit : ℚ → F
  ofInt : Int → F
  toInt : F → Int
  neg : F → F
  add : F → F → F
  sub : F → F → F
  mul : F → F → F
  div : F → F → F
  fma : F → F → F → F
  reduceAdd : List F → F
  lt : F → F → Bool
  le : F → F → Bool
  eq : F → F → Bool

section

variable {F : Type} (ops : FloatOps F)

/-! ## The blocks -/

/-- The rounding and the two clamps. -/
def quantCode (maxLevel : Int) (invScale x : F) : Int :=
  let half := if ops.le (ops.lit 0) x then ops.lit (1 / 2) else ops.lit (-1 / 2)
  let q := ops.toInt (ops.add (ops.mul x invScale) half)
  let q := if q > maxLevel then maxLevel else q
  if q < -maxLevel then -maxLevel else q

/-- `block_quant_sqerr` -/
def blockQuantSqerr (block : List F) (invScale scale : F) (maxLevel : Int) : F :=
  block.foldl (fun err x =>
    let recon := ops.mul (ops.ofInt (quantCode ops maxLevel invScale x)) scale
    let d := ops.sub x recon
    ops.add err (ops.mul d d)) (ops.lit 0)

/-- `find_best_block_scale` -/
def findBestBlockScale (block : List F) (maxLevel : Int) : F :=
  let maxAbs := block.foldl (fun maxAbs x =>
    let a := if ops.lt x (ops.lit 0) then ops.neg x else x
    if ops.lt maxAbs a then a else maxAbs) (ops.lit 0)
  if ops.eq maxAbs (ops.lit 0) then ops.lit 0
  else
    let scale0 := ops.div maxAbs (ops.ofInt maxLevel)
    let err0 := blockQuantSqerr ops block (ops.div (ops.ofInt maxLevel) maxAbs) scale0 maxLevel
    let best := [-4, -3, -2, -1, 1, 2, 3, 4].foldl (fun (best : F × F) (step : Int) =>
      let mult := ops.add (ops.lit 1) (ops.mul (ops.lit (1 / 40)) (ops.ofInt step))
      let candScale := ops.mul scale0 mult
      let candInv := if ops.lt (ops.lit 0) candScale then ops.div (ops.lit 1) candScale else ops.lit 0
      let err := blockQuantSqerr ops block candInv candScale maxLevel
      if ops.lt err best.1 then (err, candScale) else best) (err0, scale0)
    best.2

/-- The scale of a block and its codes, signed. -/
def quantBlock (maxLevel : Int) (block : List F) : F × List Int :=
  let scale := findBestBlockScale ops block maxLevel
  let invScale := if ops.lt (ops.lit 0) scale then ops.div (ops.lit 1) scale else ops.lit 0
  (scale, block.map (quantCode ops maxLevel invScale))

/-- `blk_len` -/
def blkLen (d b : Nat) : Nat := min 32 (d - 32 * b)

/-- The floats of the block `b` of a row of BF16 words. -/
def rowBlock (row : Nat → Nat) (d b : Nat) : List F := (List.range (blkLen d b)).map fun k => ops.ofBits (row (32 * b + k) <<< 16)

/-- The signed code that the builder computes for an element of a row. -/
def code (maxLevel : Int) (row : Nat → Nat) (d j : Nat) : Int := (quantBlock ops maxLevel (rowBlock ops row d (j / 32))).2.getD (j % 32) 0

/-- The scale that it computes for a block. -/
def scale (maxLevel : Int) (row : Nat → Nat) (d b : Nat) : F := (quantBlock ops maxLevel (rowBlock ops row d b)).1

/-! ## `weights_build_classifier_quant` -/

/-- A conversion to `tn_u8` -/
def toU8 (x : Int) : UInt8 := UInt8.ofNat (x % 256).toNat

/-- What is stored in an array of codes and in its array of scales. -/
structure ClsArray (F : Type) where
  bytes : List (Nat × UInt8)
  scales : List (Nat × F)

/-- The stores of one block of `wcls_i8`. -/
def blockI8 (dst : Nat) (codes : List Int) (len b : Nat) : List (Nat × UInt8) :=
  (List.range len).map fun k => (dst + (32 * b + k), toU8 (codes.getD k 0 + 128))

/-- The stores of one block of `wcls_i4`, two codes to a byte. -/
def blockI4 (dst : Nat) (codes : List Int) (len b : Nat) : List (Nat × UInt8) :=
  let blockQ := fun k => (codes.getD k 0 + 8).toNat
  (List.range (len / 2)).map (fun t =>
    (dst + (32 * b + 2 * t) / 2, toU8 ((blockQ (2 * t + 1) <<< 4 ||| blockQ (2 * t) : Nat) : Int))) ++
  if len % 2 = 1 then [(dst + (32 * b + (len - 1)) / 2, toU8 (blockQ (len - 1) : Nat))] else []

/-- The loops over the rows and the blocks. -/
def buildRows (maxLevel : Int) (rowBytes : Nat) (block : Nat → List Int → Nat → Nat → List (Nat × UInt8)) (vocab d nBlocks : Nat)
    (wcls : Nat → Nat → Nat) : ClsArray F where
  bytes := (List.range vocab).flatMap fun i => (List.range nBlocks).flatMap fun b =>
    block (i * rowBytes) (quantBlock ops maxLevel (rowBlock ops (wcls i) d b)).2 (blkLen d b) b
  scales := (List.range vocab).flatMap fun i => (List.range nBlocks).map fun b => (i * nBlocks + b, scale ops maxLevel (wcls i) d b)

/-- `n_blocks`, in `int` -/
def nBlocksOf (dim : Int) : Int := ((dim + 31).bmod (2 ^ 32)).tdiv 32

/-- `weights_build_classifier_quant`: the 8-bit and the 4-bit array, where they are built. `alloc` says whether `malloc`
succeeds for a size, and `hw` is the format of the hardware profile, if there is one. -/
def weightsBuildClassifierQuant (alloc : Nat → Bool) (hw : Option Nat) (wclsIsTernary : Bool) (vocabSize dim : Int)
    (wcls : Nat → Nat → Nat) : Option (ClsArray F) × Option (ClsArray F) :=
  let nBlocks := nBlocksOf dim
  let vocab := toSizeT vocabSize
  let d := toSizeT dim
  let scaleBytes := vocab * toSizeT nBlocks % 2 ^ 64 * 4 % 2 ^ 64
  let needI8 := hw.all (· ≥ 1)
  let needI4 := hw.all (· ≥ 2)
  let rowBytesI4 := (d + 1) / 2
  (if !wclsIsTernary && needI8 && alloc (vocab * d % 2 ^ 64) && alloc scaleBytes then
      some (buildRows ops 127 d blockI8 vocab d nBlocks.toNat wcls)
    else none,
    if !wclsIsTernary && needI4 && alloc (vocab * rowBytesI4 % 2 ^ 64) && alloc scaleBytes then
      some (buildRows ops 7 rowBytesI4 blockI4 vocab d nBlocks.toNat wcls)
    else none)

/-! ## The kernels -/

/-- The instruction set that the kernels are compiled for. -/
inductive Isa
  | avx512
  | avx2
  | none
deriving DecidableEq, Repr

/-- The elements of one vector step. -/
def Isa.width : Isa → Nat
  | .avx512 => 16
  | .avx2 => 8
  | .none => 0

/-- What a kernel reads for one block: the loads of packed weights (address and length), the lanes of its vector steps and
the elements of its tail (the index into `x` and the weight), and the index of the scale. -/
structure BlockRead where
  loads : List (Nat × Nat)
  steps : List (List (Nat × Int))
  tail : List (Nat × Int)
  scaleIdx : Nat

/-- One block of `matmul_i8_task`, for the row `i` at `row` in memory. -/
def readI8 (isa : Isa) (n nb : Nat) (mem : Nat → UInt8) (row i b : Nat) : BlockRead :=
  let len := blkLen n b
  let brow := row + 32 * b
  let c := len / isa.width
  { loads := (List.range c).map (fun p => (brow + isa.width * p, isa.width)) ++
      (List.range (len - isa.width * c)).map fun l => (brow + (isa.width * c + l), 1)
    steps := (List.range c).map fun p => (List.range isa.width).map fun l =>
      (32 * b + (isa.width * p + l), ((mem (brow + isa.width * p + l)).toNat : Int) - 128)
    tail := (List.range (len - isa.width * c)).map fun l =>
      (32 * b + (isa.width * c + l), ((mem (brow + (isa.width * c + l))).toNat : Int) - 128)
    scaleIdx := i * nb + b }

/-- The lanes that a vector step of `matmul_i4_task` unpacks from the bytes at `p`. -/
def interleaved (isa : Isa) (mem : Nat → UInt8) (p : Nat) : Nat → Nat :=
  let packed8 := fun t => if t < isa.width / 2 then (mem (p + t)).toNat else 0
  let lo8 := andSet1 packed8 0x0F
  let hi8 := andSet1 (srliEpi16 packed8 4) 0x0F
  unpackloEpi8 lo8 hi8

/-- One block of `matmul_i4_task`. -/
def readI4 (isa : Isa) (n nb : Nat) (mem : Nat → UInt8) (row i b : Nat) : BlockRead :=
  let len := blkLen n b
  let brow := row + 32 * b / 2
  let c := len / isa.width
  { loads := (List.range c).map (fun p => (brow + isa.width * p / 2, isa.width / 2)) ++
      (List.range (len - isa.width * c)).map fun l => (row + (32 * b + (isa.width * c + l)) / 2, 1)
    steps := (List.range c).map fun p => (List.range isa.width).map fun l =>
      (32 * b + (isa.width * p + l), (interleaved isa mem (brow + isa.width * p / 2) l : Int) - 8)
    tail := (List.range (len - isa.width * c)).map fun l =>
      let absJ := 32 * b + (isa.width * c + l)
      let byte := (mem (row + absJ / 2)).toNat
      let nibble := if absJ % 2 = 1 then (byte >>> 4) &&& 0x0F else byte &&& 0x0F
      (absJ, (nibble : Int) - 8)
    scaleIdx := i * nb + b }

/-- The elements of a block, the lanes first. -/
def BlockRead.terms (r : BlockRead) : List (Nat × Int) := r.steps.flatten ++ r.tail

/-- `val`, the dot product of a block. -/
def BlockRead.val (isa : Isa) (x : Nat → F) (r : BlockRead) : F :=
  let acc := r.steps.foldl (fun acc step => List.zipWith (fun t a => ops.fma (ops.ofInt t.2) (x t.1) a) step acc)
    (List.replicate isa.width (ops.lit 0))
  let start := if isa = .none then ops.lit 0 else ops.reduceAdd acc
  r.tail.foldl (fun v t => ops.add v (ops.mul (ops.ofInt t.2) (x t.1))) start

/-- What a task reads for the rows of its slice. -/
def taskReads (read : Nat → Nat → BlockRead) (nb start stop : Nat) : List (Nat × List BlockRead) :=
  (List.range' start (stop - start)).map fun i => (i, (List.range nb).map (read i))

/-- The outputs of a task. -/
def matmulTask (isa : Isa) (read : Nat → Nat → BlockRead) (nb : Nat) (scales x : Nat → F) (start stop : Nat) : List (Nat × F) :=
  (taskReads read nb start stop).map fun (i, reads) =>
    (i, reads.foldl (fun total r => ops.add total (ops.mul (r.val ops isa x) (scales r.scaleIdx))) (ops.lit 0))

/-! ## Agreement -/

/-- The bytes of an array; one that has not been stored may hold anything. -/
def ClsArray.contents (arr : ClsArray F) (junk : Nat → UInt8) (a : Nat) : UInt8 := (stored arr.bytes a).getD (junk a)

/-- What is read for the row `i` is what has been computed for it: the codes are in range, the elements come in the order of
the row with the weight and the scale of the builder, and no load leaves the row or what has been stored of it. -/
structure Agrees (maxLevel bias : Int) (row : Nat → Nat) (arr : ClsArray F) (rowBytes d nb i : Nat) (reads : List BlockRead) :
    Prop where
  codes : ∀ j < d, 1 ≤ code ops maxLevel row d j + bias ∧ code ops maxLevel row d j + bias ≤ 2 * bias - 1
  terms : (reads.flatMap fun r => r.terms.map fun t => (t.1, t.2, stored arr.scales r.scaleIdx)) =
    (List.range d).map fun j => (j, code ops maxLevel row d j, some (scale ops maxLevel row d (j / 32)))
  loads : ∀ r ∈ reads, ∀ l ∈ r.loads, ∀ a, l.1 ≤ a → a < l.1 + l.2 →
    (i * rowBytes ≤ a ∧ a < (i + 1) * rowBytes) ∧ (stored arr.bytes a).isSome = true
  scales : ∀ r ∈ reads, i * nb ≤ r.scaleIdx ∧ r.scaleIdx < (i + 1) * nb

/-! ## The codes -/

theorem quantCode_bounds {maxLevel : Int} (h : 0 ≤ maxLevel) (invScale x : F) :
    -maxLevel ≤ quantCode ops maxLevel invScale x ∧ quantCode ops maxLevel invScale x ≤ maxLevel := by
  unfold quantCode
  dsimp only
  split_ifs <;> constructor <;> omega

theorem code_bounds {maxLevel : Int} (h : 0 ≤ maxLevel) (row : Nat → Nat) (d j : Nat) :
    -maxLevel ≤ code ops maxLevel row d j ∧ code ops maxLevel row d j ≤ maxLevel := by
  unfold code
  rw [List.getD_eq_getElem?_getD]
  cases hq : (quantBlock ops maxLevel (rowBlock ops row d (j / 32))).2[j % 32]? with
  | none => exact ⟨by simpa using h, by simpa using h⟩
  | some q =>
    obtain ⟨x, -, rfl⟩ := List.mem_map.1 (List.mem_of_getElem? hq)
    exact quantCode_bounds ops h _ _

/-- The codes of a block, by their place in the row. -/
theorem block_getD (maxLevel : Int) (row : Nat → Nat) {d b k : Nat} (hk : k < blkLen d b) :
    (quantBlock ops maxLevel (rowBlock ops row d b)).2.getD k 0 = code ops maxLevel row d (32 * b + k) := by
  have hlt : k < 32 := lt_of_lt_of_le hk (min_le_left _ _)
  have hdiv : (32 * b + k) / 32 = b := by omega
  have hmod : (32 * b + k) % 32 = k := by omega
  unfold code
  rw [hdiv, hmod]

/-- A byte of the 4-bit array. -/
def byteI4 (row : Nat → Nat) (d t : Nat) : Nat :=
  (if 2 * t + 1 < d then (code ops 7 row d (2 * t + 1) + 8).toNat else 0) * 16 + (code ops 7 row d (2 * t) + 8).toNat

theorem toU8_toNat {x : Int} (h0 : 0 ≤ x) (h : x < 256) : ((toU8 x).toNat : Int) = x := by
  have hmod : x % 256 = x := Int.emod_eq_of_lt h0 h
  unfold toU8
  rw [hmod, UInt8.toNat_ofNat_of_lt' (by norm_num; omega), Int.toNat_of_nonneg h0]

/-! ## What the builder stores -/

theorem blockI8_eq (row : Nat → Nat) (dst d b : Nat) :
    blockI8 dst (quantBlock ops 127 (rowBlock ops row d b)).2 (blkLen d b) b =
      (List.range (min 32 (d - 32 * b))).map fun k => (dst + (32 * b + k), toU8 (code ops 127 row d (32 * b + k) + 128)) := by
  refine List.map_congr_left fun k hk => ?_
  rw [block_getD ops 127 row (List.mem_range.1 hk)]

theorem blockI4_eq (row : Nat → Nat) (dst d b : Nat) :
    blockI4 dst (quantBlock ops 7 (rowBlock ops row d b)).2 (blkLen d b) b =
      (List.range (min 16 ((d + 1) / 2 - 16 * b))).map fun s => (dst + (16 * b + s), toU8 (byteI4 ops row d (16 * b + s) : Nat)) := by
  have hcode : ∀ k < blkLen d b, (quantBlock ops 7 (rowBlock ops row d b)).2.getD k 0 = code ops 7 row d (32 * b + k) :=
    fun k hk => block_getD ops 7 row hk
  generalize (quantBlock ops 7 (rowBlock ops row d b)).2 = codes at hcode
  have hlen : blkLen d b = min 32 (d - 32 * b) := rfl
  generalize blkLen d b = len at hcode hlen
  -- the full bytes
  have hfull : ∀ t < len / 2, (dst + (32 * b + 2 * t) / 2,
      toU8 (((codes.getD (2 * t + 1) 0 + 8).toNat <<< 4 ||| (codes.getD (2 * t) 0 + 8).toNat : Nat) : Int)) =
        (dst + (16 * b + t), toU8 (byteI4 ops row d (16 * b + t) : Nat)) := by
    intro t ht
    have haddr : (32 * b + 2 * t) / 2 = 16 * b + t := by omega
    have hlo := @code_bounds F ops 7 (by decide) row d (32 * b + 2 * t)
    have hor : (codes.getD (2 * t + 1) 0 + 8).toNat <<< 4 ||| (codes.getD (2 * t) 0 + 8).toNat = byteI4 ops row d (16 * b + t) := by
      have h2 : 2 * (16 * b + t) = 32 * b + 2 * t := by ring
      unfold byteI4
      rw [hcode _ (by omega), hcode _ (by omega), h2, if_pos (by omega),
        ← Nat.shiftLeft_add_eq_or_of_lt (show (code ops 7 row d (32 * b + 2 * t) + 8).toNat < 2 ^ 4 by omega), Nat.shiftLeft_eq]
      rfl
    rw [haddr, hor]
  unfold blockI4
  dsimp only
  rw [List.map_congr_left fun t ht => hfull t (List.mem_range.1 ht)]
  split
  · next hodd =>
    -- the last byte of an odd row has one code only
    have hcount : min 16 ((d + 1) / 2 - 16 * b) = len / 2 + 1 := by omega
    have hk : len - 1 = 2 * (len / 2) := by omega
    have haddr : (32 * b + (len - 1)) / 2 = 16 * b + len / 2 := by omega
    have hbyte : (codes.getD (len - 1) 0 + 8).toNat = byteI4 ops row d (16 * b + len / 2) := by
      have h2 : 2 * (16 * b + len / 2) = 32 * b + (len - 1) := by omega
      unfold byteI4
      rw [hcode _ (by omega), h2, if_neg (by omega), Nat.zero_mul, Nat.zero_add]
    rw [hcount, List.range_succ, List.map_append, haddr, hbyte]
    rfl
  · next heven =>
    have hcount : min 16 ((d + 1) / 2 - 16 * b) = len / 2 := by omega
    rw [hcount, List.append_nil]

theorem bytes_i8 (wcls : Nat → Nat → Nat) (vocab d : Nat) :
    (buildRows ops 127 d blockI8 vocab d ((d + 31) / 32) wcls).bytes =
      (List.range vocab).flatMap fun i => (List.range d).map fun j => (i * d + j, toU8 (code ops 127 (wcls i) d j + 128)) := by
  refine List.flatMap_congr fun i _ => ?_
  have hblocks := blocks_flatMap (fun j => (i * d + j, toU8 (code ops 127 (wcls i) d j + 128))) (w := 32) (by decide) d
  rw [← hblocks]
  exact List.flatMap_congr fun b _ => blockI8_eq ops (wcls i) (i * d) d b

theorem bytes_i4 (wcls : Nat → Nat → Nat) (vocab d : Nat) :
    (buildRows ops 7 ((d + 1) / 2) blockI4 vocab d ((d + 31) / 32) wcls).bytes =
      (List.range vocab).flatMap fun i => (List.range ((d + 1) / 2)).map fun t =>
        (i * ((d + 1) / 2) + t, toU8 (byteI4 ops (wcls i) d t : Nat)) := by
  refine List.flatMap_congr fun i _ => ?_
  have hblocks := blocks_flatMap (fun t => (i * ((d + 1) / 2) + t, toU8 (byteI4 ops (wcls i) d t : Nat))) (w := 16) (by decide)
    ((d + 1) / 2)
  have hcount : ((d + 1) / 2 + 16 - 1) / 16 = (d + 31) / 32 := by omega
  rw [← hblocks, hcount]
  exact List.flatMap_congr fun b _ => blockI4_eq ops (wcls i) (i * ((d + 1) / 2)) d b

/-! ## What the kernels read -/

end

theorem readI8_terms (isa : Isa) (n nb : Nat) (mem : Nat → UInt8) (row i b : Nat) :
    (readI8 isa n nb mem row i b).terms =
      (List.range (blkLen n b)).map fun k => (32 * b + k, ((mem (row + (32 * b + k))).toNat : Int) - 128) := by
  have hpieces := pieces_append (fun k => (32 * b + k, ((mem (row + (32 * b + k))).toNat : Int) - 128)) isa.width
    (c := blkLen n b / isa.width) (n := blkLen n b) (Nat.mul_div_le _ _)
  rw [← hpieces]
  unfold BlockRead.terms readI8
  simp only [← List.flatMap_def, Nat.add_assoc]

/-- The lanes of a vector step are the nibbles in the order of the elements. -/
theorem interleaved_eq (isa : Isa) (mem : Nat → UInt8) (p : Nat) {l : Nat} (hl : l < isa.width) :
    interleaved isa mem p l = (mem (p + l / 2)).toNat / 16 ^ (l % 2) % 16 := by
  have hbyte : l / 2 < isa.width / 2 := by
    cases isa <;> simp only [Isa.width] at hl ⊢ <;> omega
  have hlt : ∀ t, (if t < isa.width / 2 then (mem (p + t)).toNat else 0) < 256 := by
    intro t
    split
    · exact UInt8.toNat_lt _
    · decide
  have hself := UInt8.toNat_lt (mem (p + l / 2))
  unfold interleaved unpackloEpi8
  rw [srliEpi16_nibble hlt]
  split
  · next heven =>
    have hmask : ∀ x, x &&& 0x0F = x % 16 := fun x => Nat.and_two_pow_sub_one_eq_mod x 4
    unfold andSet1
    rw [hmask]
    dsimp only
    rw [if_pos hbyte, heven, Nat.pow_zero, Nat.div_one]
  · next hodd =>
    have hone : l % 2 = 1 := by omega
    rw [hone, Nat.pow_one]
    omega

theorem readI4_terms (isa : Isa) (n nb : Nat) (mem : Nat → UInt8) (row i b : Nat) :
    (readI4 isa n nb mem row i b).terms = (List.range (blkLen n b)).map fun k =>
      (32 * b + k, (((mem (row + (32 * b + k) / 2)).toNat / 16 ^ ((32 * b + k) % 2) % 16 : Nat) : Int) - 8) := by
  have hpieces := pieces_append (fun k =>
    (32 * b + k, (((mem (row + (32 * b + k) / 2)).toNat / 16 ^ ((32 * b + k) % 2) % 16 : Nat) : Int) - 8)) isa.width
    (c := blkLen n b / isa.width) (n := blkLen n b) (Nat.mul_div_le _ _)
  have heven : isa.width % 2 = 0 := by
    cases isa <;> rfl
  -- a lane of a step
  have hlane : ∀ p l, l < isa.width →
      interleaved isa mem (row + 32 * b / 2 + isa.width * p / 2) l =
        (mem (row + (32 * b + (isa.width * p + l)) / 2)).toNat / 16 ^ ((32 * b + (isa.width * p + l)) % 2) % 16 := by
    intro p l hl
    have hmul : isa.width * p % 2 = 0 := by
      rw [Nat.mul_mod, heven, Nat.zero_mul, Nat.zero_mod]
    have haddr : row + 32 * b / 2 + isa.width * p / 2 + l / 2 = row + (32 * b + (isa.width * p + l)) / 2 := by omega
    have hpar : l % 2 = (32 * b + (isa.width * p + l)) % 2 := by omega
    rw [interleaved_eq isa mem _ hl, haddr, hpar]
  -- an element of the tail
  have htail : ∀ j, (if j % 2 = 1 then (mem (row + j / 2)).toNat >>> 4 &&& 0x0F else (mem (row + j / 2)).toNat &&& 0x0F) =
      (mem (row + j / 2)).toNat / 16 ^ (j % 2) % 16 := by
    intro j
    have hmask : ∀ x, x &&& 0x0F = x % 16 := fun x => Nat.and_two_pow_sub_one_eq_mod x 4
    split
    · next hodd => rw [hmask, Nat.shiftRight_eq_div_pow, hodd, Nat.pow_one]
    · next hnot =>
      have hzero : j % 2 = 0 := by omega
      rw [hmask, hzero, Nat.pow_zero, Nat.div_one]
  rw [← hpieces]
  unfold BlockRead.terms readI4
  simp only [← List.flatMap_def, htail]
  congr 1
  refine List.flatMap_congr fun p _ => List.map_congr_left fun l hl => ?_
  rw [hlane p l (List.mem_range.1 hl)]

theorem blkLen_le {n b : Nat} (hb : b < (n + 31) / 32) : 32 * b + blkLen n b ≤ n := by
  unfold blkLen
  omega

/-- A whole vector of the block. -/
theorem vector_le {isa : Isa} {n b p : Nat} (hp : p ∈ List.range (blkLen n b / isa.width)) :
    isa.width * p + isa.width ≤ blkLen n b := by
  rw [← Nat.mul_succ]
  exact (Nat.mul_le_mul_left _ (List.mem_range.1 hp)).trans (Nat.mul_div_le _ _)

theorem loads_i8 {isa : Isa} {n nb : Nat} {mem : Nat → UInt8} {row i b : Nat} (hb : b < (n + 31) / 32) :
    ∀ l ∈ (readI8 isa n nb mem row i b).loads, row ≤ l.1 ∧ l.1 + l.2 ≤ row + n := by
  have hlen := blkLen_le hb
  intro l hl
  rcases List.mem_append.1 hl with hl | hl
  · obtain ⟨p, hp, rfl⟩ := List.mem_map.1 hl
    have hstep := vector_le hp
    dsimp only
    constructor <;> omega
  · obtain ⟨t, ht, rfl⟩ := List.mem_map.1 hl
    have hlt := List.mem_range.1 ht
    dsimp only
    constructor <;> omega

theorem loads_i4 {isa : Isa} {n nb : Nat} {mem : Nat → UInt8} {row i b : Nat} (hb : b < (n + 31) / 32) :
    ∀ l ∈ (readI4 isa n nb mem row i b).loads, row ≤ l.1 ∧ l.1 + l.2 ≤ row + (n + 1) / 2 := by
  have hlen := blkLen_le hb
  have heven : isa.width % 2 = 0 := by
    cases isa <;> rfl
  intro l hl
  rcases List.mem_append.1 hl with hl | hl
  · obtain ⟨p, hp, rfl⟩ := List.mem_map.1 hl
    have hstep := vector_le hp
    dsimp only
    constructor <;> omega
  · obtain ⟨t, ht, rfl⟩ := List.mem_map.1 hl
    have hlt := List.mem_range.1 ht
    dsimp only
    constructor <;> omega

section

variable {F : Type} {ops : FloatOps F}

/-- Agreement of a row, from what is read for each of its blocks. -/
theorem agrees_of_blocks {maxLevel bias : Int} {row : Nat → Nat} {arr : ClsArray F} {rowBytes d nb i : Nat} {read : Nat → BlockRead}
    (hbias : maxLevel = bias - 1) (hpos : 1 ≤ bias) (hnb : nb = (d + 31) / 32)
    (hterms : ∀ b < nb, (read b).terms = (List.range (blkLen d b)).map fun k => (32 * b + k, code ops maxLevel row d (32 * b + k)))
    (hidx : ∀ b, (read b).scaleIdx = i * nb + b)
    (hscales : ∀ b < nb, stored arr.scales (i * nb + b) = some (scale ops maxLevel row d b))
    (hloads : ∀ b < nb, ∀ l ∈ (read b).loads, i * rowBytes ≤ l.1 ∧ l.1 + l.2 ≤ i * rowBytes + rowBytes)
    (hstored : ∀ t < rowBytes, (stored arr.bytes (i * rowBytes + t)).isSome = true) :
    Agrees ops maxLevel bias row arr rowBytes d nb i ((List.range nb).map read) where
  codes j _ := by
    have hbounds := @code_bounds F ops maxLevel (by omega) row d j
    constructor <;> omega
  terms := by
    have hblocks := blocks_flatMap (fun j => (j, code ops maxLevel row d j, some (scale ops maxLevel row d (j / 32)))) (w := 32)
      (by decide) d
    rw [List.flatMap_map, ← hblocks, hnb]
    refine List.flatMap_congr fun b hb => ?_
    have hlt : b < nb := hnb ▸ List.mem_range.1 hb
    rw [hterms b hlt, hidx, hscales b hlt, List.map_map]
    refine List.map_congr_left fun k hk => ?_
    have hk32 : k < 32 := lt_of_lt_of_le (List.mem_range.1 hk) (min_le_left _ _)
    have hdiv : (32 * b + k) / 32 = b := by omega
    dsimp only [Function.comp]
    rw [hdiv]
  loads := by
    intro r hr l hl a hlo hhi
    obtain ⟨b, hb, rfl⟩ := List.mem_map.1 hr
    obtain ⟨hstart, hend⟩ := hloads b (List.mem_range.1 hb) l hl
    have hsome := hstored (a - i * rowBytes) (by omega)
    have haddr : i * rowBytes + (a - i * rowBytes) = a := by omega
    rw [haddr] at hsome
    refine ⟨⟨by omega, ?_⟩, hsome⟩
    rw [Nat.succ_mul]
    omega
  scales := by
    intro r hr
    obtain ⟨b, hb, rfl⟩ := List.mem_map.1 hr
    have hlt := List.mem_range.1 hb
    rw [hidx, Nat.succ_mul]
    constructor <;> omega

theorem agrees_i8 (wcls : Nat → Nat → Nat) (junk : Nat → UInt8) (isa : Isa) {vocab d i : Nat} (hi : i < vocab) :
    Agrees ops 127 128 (wcls i) (buildRows ops 127 d blockI8 vocab d ((d + 31) / 32) wcls) d d ((d + 31) / 32) i
      ((List.range ((d + 31) / 32)).map fun b => readI8 isa d ((d + 31) / 32)
        ((buildRows ops 127 d blockI8 vocab d ((d + 31) / 32) wcls).contents junk) (i * d) i b) := by
  have hstored : ∀ j < d, stored (buildRows ops 127 d blockI8 vocab d ((d + 31) / 32) wcls).bytes (i * d + j) =
      some (toU8 (code ops 127 (wcls i) d j + 128)) := fun j hj => by
    rw [bytes_i8]
    exact stored_rows (fun i j => toU8 (code ops 127 (wcls i) d j + 128)) hi hj
  refine agrees_of_blocks rfl (by decide) rfl (fun b hb => ?_) (fun _ => rfl) (fun b hb => ?_) (fun b hb => loads_i8 hb)
    (fun j hj => by rw [hstored j hj]; rfl)
  · rw [readI8_terms]
    refine List.map_congr_left fun k hk => ?_
    have hj : 32 * b + k < d := by
      have hlt := List.mem_range.1 hk
      unfold blkLen at hlt
      omega
    have hbounds := @code_bounds F ops 127 (by decide) (wcls i) d (32 * b + k)
    unfold ClsArray.contents
    rw [hstored _ hj, Option.getD_some, toU8_toNat (by omega) (by omega), add_sub_cancel_right]
  · exact stored_rows (fun i b => scale ops 127 (wcls i) d b) hi hb

theorem agrees_i4 (wcls : Nat → Nat → Nat) (junk : Nat → UInt8) (isa : Isa) {vocab d i : Nat} (hi : i < vocab) :
    Agrees ops 7 8 (wcls i) (buildRows ops 7 ((d + 1) / 2) blockI4 vocab d ((d + 31) / 32) wcls) ((d + 1) / 2) d ((d + 31) / 32) i
      ((List.range ((d + 31) / 32)).map fun b => readI4 isa d ((d + 31) / 32)
        ((buildRows ops 7 ((d + 1) / 2) blockI4 vocab d ((d + 31) / 32) wcls).contents junk) (i * ((d + 1) / 2)) i b) := by
  have hstored : ∀ t < (d + 1) / 2,
      stored (buildRows ops 7 ((d + 1) / 2) blockI4 vocab d ((d + 31) / 32) wcls).bytes (i * ((d + 1) / 2) + t) =
        some (toU8 (byteI4 ops (wcls i) d t : Nat)) := fun t ht => by
    rw [bytes_i4]
    exact stored_rows (fun i t => toU8 (byteI4 ops (wcls i) d t : Nat)) hi ht
  refine agrees_of_blocks rfl (by decide) rfl (fun b hb => ?_) (fun _ => rfl) (fun b hb => ?_) (fun b hb => loads_i4 hb)
    (fun t ht => by rw [hstored t ht]; rfl)
  · rw [readI4_terms]
    refine List.map_congr_left fun k hk => ?_
    have hj : 32 * b + k < d := by
      have hlt := List.mem_range.1 hk
      unfold blkLen at hlt
      omega
    unfold ClsArray.contents
    rw [hstored _ (by omega), Option.getD_some]
    generalize 32 * b + k = j at hj
    have hlow := @code_bounds F ops 7 (by decide) (wcls i) d (2 * (j / 2))
    have hhigh := @code_bounds F ops 7 (by decide) (wcls i) d (2 * (j / 2) + 1)
    have hbyte : byteI4 ops (wcls i) d (j / 2) < 256 := by
      unfold byteI4
      split <;> omega
    have hnat : (toU8 (byteI4 ops (wcls i) d (j / 2) : Nat)).toNat = byteI4 ops (wcls i) d (j / 2) := by
      have hcast := toU8_toNat (x := (byteI4 ops (wcls i) d (j / 2) : Nat)) (by omega) (by omega)
      omega
    rw [hnat]
    congr 1
    unfold byteI4
    rcases Nat.mod_two_eq_zero_or_one j with hpar | hpar
    · have hself : 2 * (j / 2) = j := by omega
      rw [hself] at hlow ⊢
      rw [hpar, Nat.pow_zero, Nat.div_one]
      split <;> omega
    · have hself : 2 * (j / 2) + 1 = j := by omega
      rw [hself] at hhigh ⊢
      rw [hpar, Nat.pow_one, if_pos hj]
      omega
  · exact stored_rows (fun i b => scale ops 7 (wcls i) d b) hi hb

end

/-! ## The layout -/

/-- The number of blocks of a row; beyond this bound the sum is negative. -/
theorem nBlocksOf_eq {dim : Int} (h1 : 1 ≤ dim) (hle : dim ≤ 2 ^ 31 - 32) : (nBlocksOf dim).toNat = (toSizeT dim + 31) / 32 ∧
    toSizeT (nBlocksOf dim) = (toSizeT dim + 31) / 32 := by
  have hd := toSizeT_eq (n := dim) (by omega) (by omega)
  have hsum : (dim + 31).bmod (2 ^ 32) = dim + 31 := by
    rw [Int.bmod_def]
    omega
  have hdiv : nBlocksOf dim = (dim + 31) / 32 := by
    unfold nBlocksOf
    rw [hsum, Int.tdiv_eq_ediv_of_nonneg (by omega)]
  have hsize := toSizeT_eq (n := nBlocksOf dim) (by omega) (by omega)
  constructor <;> omega

/-- Where the sum overflows, no array of scales can be allocated. -/
theorem scaleBytes_ge {vocabSize dim : Int} (hv : 1 ≤ vocabSize) (hvlt : vocabSize < 2 ^ 31) (hgt : 2 ^ 31 - 32 < dim)
    (hlt : dim < 2 ^ 31) : 2 ^ 63 ≤ toSizeT vocabSize * toSizeT (nBlocksOf dim) % 2 ^ 64 * 4 % 2 ^ 64 := by
  have hvocab := toSizeT_eq (n := vocabSize) (by omega) (by omega)
  have hsum : (dim + 31).bmod (2 ^ 32) = dim + 31 - 2 ^ 32 := by
    rw [Int.bmod_def]
    omega
  have hneg : ∃ c : Nat, 1 ≤ c ∧ c ≤ 2 ^ 26 ∧ nBlocksOf dim = -(c : Int) := by
    refine ⟨((2 ^ 32 - 31 - dim) / 32).toNat, by omega, by omega, ?_⟩
    have hswap : dim + 31 - 2 ^ 32 = -(2 ^ 32 - 31 - dim) := by ring
    unfold nBlocksOf
    rw [hsum, hswap, Int.neg_tdiv, Int.tdiv_eq_ediv_of_nonneg (by omega)]
    omega
  obtain ⟨c, hc1, hc, hblocks⟩ := hneg
  have hsize : toSizeT (nBlocksOf dim) = 2 ^ 64 - c := by
    unfold toSizeT
    rw [hblocks]
    omega
  have hpos : 1 ≤ toSizeT vocabSize := by omega
  have hvlt' : toSizeT vocabSize < 2 ^ 31 := by omega
  rw [hsize]
  generalize toSizeT vocabSize = v at hpos hvlt'
  have hprod : v * c < 2 ^ 57 := by
    calc v * c ≤ v * 2 ^ 26 := Nat.mul_le_mul_left _ hc
      _ < 2 ^ 57 := by omega
  have hmul : v * (2 ^ 64 - c) + v * c = v * 2 ^ 64 := by
    rw [← Nat.mul_add, Nat.sub_add_cancel (by omega)]
  have hprod1 : 1 ≤ v * c := Nat.mul_pos hpos hc1
  generalize v * c = p at hprod hmul hprod1
  generalize v * (2 ^ 64 - c) = q at hmul
  omega

/-- A task reads the rows of its slice in order. -/
theorem taskReads_rows (read : Nat → Nat → BlockRead) (nb start stop : Nat) :
    (taskReads read nb start stop).map Prod.fst = List.range' start (stop - start) := by
  unfold taskReads
  rw [List.map_map]
  exact List.map_id' _

/-- A row of a task's slice is a row of the array, and its reads are those of its blocks. -/
theorem mem_taskReads {read : Nat → Nat → BlockRead} {nb start stop i : Nat} {reads : List BlockRead}
    (h : (i, reads) ∈ taskReads read nb start stop) : i < stop ∧ reads = (List.range nb).map (read i) := by
  obtain ⟨i', hi', heq⟩ := List.mem_map.1 h
  obtain ⟨hge, hlt⟩ := List.mem_range'_1.1 hi'
  cases heq
  exact ⟨by omega, rfl⟩

section

variable {F : Type}

/-- Both kernels, on the arrays that have been built, read each row of every slice: for it the codes and the scales that the
builder has computed, out of bytes that have been stored in that row. -/
theorem classifier_layout (ops : FloatOps F) (alloc : Nat → Bool) (halloc : ∀ size, 2 ^ 63 ≤ size → alloc size = false)
    (hw : Option Nat) (wclsIsTernary : Bool) (vocabSize dim : Int) (hvocab : vocabSize < 2 ^ 31) (hdim1 : 1 ≤ dim)
    (hdim : dim < 2 ^ 31) (wcls : Nat → Nat → Nat) (junk : Nat → UInt8) (isa : Isa) (start stop : Nat)
    (hstop : (stop : Int) ≤ vocabSize) :
    let d := toSizeT dim
    let nb := (nBlocksOf dim).toNat
    let built := weightsBuildClassifierQuant ops alloc hw wclsIsTernary vocabSize dim wcls
    (∀ arr, built.1 = some arr →
      let reads := taskReads (fun i => readI8 isa d nb (arr.contents junk) (i * d) i) nb start stop
      reads.map Prod.fst = List.range' start (stop - start) ∧ ∀ r ∈ reads, Agrees ops 127 128 (wcls r.1) arr d d nb r.1 r.2) ∧
    ∀ arr, built.2 = some arr →
      let reads := taskReads (fun i => readI4 isa d nb (arr.contents junk) (i * ((d + 1) / 2)) i) nb start stop
      reads.map Prod.fst = List.range' start (stop - start) ∧
        ∀ r ∈ reads, Agrees ops 7 8 (wcls r.1) arr ((d + 1) / 2) d nb r.1 r.2 := by
  intro d nb built
  -- a row is read only from an array with scales, and then the number of blocks has not overflowed
  have hrow : ∀ i < stop, alloc (toSizeT vocabSize * toSizeT (nBlocksOf dim) % 2 ^ 64 * 4 % 2 ^ 64) = true →
      i < toSizeT vocabSize ∧ nb = (d + 31) / 32 := by
    intro i hi hok
    have hv := toSizeT_eq (n := vocabSize) (by omega) (by omega)
    refine ⟨by omega, (nBlocksOf_eq hdim1 ?_).1⟩
    by_contra hgt
    rw [halloc _ (scaleBytes_ge (by omega) hvocab (by omega) hdim)] at hok
    exact Bool.false_ne_true hok
  constructor
  · intro arr harr
    refine ⟨taskReads_rows _ _ _ _, ?_⟩
    rintro ⟨i, reads⟩ hr
    obtain ⟨hi, rfl⟩ := mem_taskReads hr
    obtain ⟨hcond, hsome⟩ := Option.ite_none_right_eq_some.1 harr
    obtain rfl := Option.some.inj hsome
    simp only [Bool.and_eq_true] at hcond
    obtain ⟨hlt, hnb⟩ := hrow i hi hcond.2
    have hagree := @agrees_i8 F ops wcls junk isa (toSizeT vocabSize) d i hlt
    rw [← hnb] at hagree
    exact hagree
  · intro arr harr
    refine ⟨taskReads_rows _ _ _ _, ?_⟩
    rintro ⟨i, reads⟩ hr
    obtain ⟨hi, rfl⟩ := mem_taskReads hr
    obtain ⟨hcond, hsome⟩ := Option.ite_none_right_eq_some.1 harr
    obtain rfl := Option.some.inj hsome
    simp only [Bool.and_eq_true] at hcond
    obtain ⟨hlt, hnb⟩ := hrow i hi hcond.2
    have hagree := @agrees_i4 F ops wcls junk isa (toSizeT vocabSize) d i hlt
    rw [← hnb] at hagree
    exact hagree

/-- Exact arithmetic on the rationals. -/
def exactOps : FloatOps ℚ where
  ofBits := Ieee.value 8 23
  lit x := x
  ofInt x := x
  toInt x := if 0 ≤ x then ⌊x⌋ else ⌈x⌉
  neg x := -x
  add x y := x + y
  sub x y := x - y
  mul x y := x * y
  div x y := x / y
  fma x y z := x * y + z
  reduceAdd := List.sum
  lt x y := x < y
  le x y := x ≤ y
  eq x y := x = y

theorem classifier_layout_dim_35 :
    let built := weightsBuildClassifierQuant exactOps (· < 2 ^ 40) none false 2 35 (fun i j => 0x3F80 + i + j)
    (built.1.isSome = true ∧ built.2.isSome = true) ∧
      (∀ arr, built.1 = some arr →
        let reads := taskReads (fun i => readI8 .avx512 35 2 (arr.contents fun _ => 0) (i * 35) i) 2 0 2
        reads.map Prod.fst = [0, 1] ∧ ∀ r ∈ reads, Agrees exactOps 127 128 (fun j => 0x3F80 + r.1 + j) arr 35 35 2 r.1 r.2) ∧
      ∀ arr, built.2 = some arr →
        let reads := taskReads (fun i => readI4 .avx512 35 2 (arr.contents fun _ => 0) (i * 18) i) 2 0 2
        reads.map Prod.fst = [0, 1] ∧ ∀ r ∈ reads, Agrees exactOps 7 8 (fun j => 0x3F80 + r.1 + j) arr 18 35 2 r.1 r.2 :=
  ⟨⟨rfl, rfl⟩, classifier_layout exactOps (· < 2 ^ 40) (fun _ h => decide_eq_false (by omega)) none false 2 35 (by decide) (by decide)
    (by decide) (fun i j => 0x3F80 + i + j) (fun _ => 0) .avx512 0 2 (by decide)⟩

end

end BitForge.ClassifierQuant
