/-
The decoders of `gguf_quant.c` and the three tables of sizes that have to agree with them. A decoder is modelled with the
bytes that it reads and the floats that it stores, over whatever float arithmetic there is. An array of `n_elems` floats
lies in memory, so no product of the decoders leaves `size_t`.
-/
import BitForge.Gguf.Reader
import BitForge.Kernel.HalfFloat
import BitForge.Lib.BlockDecode

namespace BitForge.Gguf

open BitForge.Lib
open Decoder (byte store forEach gather word16 word32 int8 Reads Stores IsBlock)

/-- The arithmetic of `float`. -/
structure FloatOps (F : Type) where
  /-- the number of a bit pattern -/
  ofBits : Nat → F
  ofInt : Int → F
  add : F → F → F
  sub : F → F → F
  mul : F → F → F
  /-- `!(d == d)` -/
  isNan : F → Bool

variable {F : Type} (ops : FloatOps F)

/-- `0.0f` -/
def FloatOps.zero : F := ops.ofBits 0

/-- The scale at an offset of a block, by `fp16_to_f32`. -/
def scaleAt (o : Nat) : Decoder F F := do
  let h ← word16 o
  return ops.ofBits (HalfFloat.fp16Bits h)

/-- `if (!(d == d)) d = 0.0f;` -/
def nanGuard (d : F) : F := if ops.isNan d then ops.zero else d

/-- `for (i = done; i < n_elems; i++) out[i] = 0.0f;` with `done` the start of the output. -/
def zeroTail (rest : Nat) : Decoder F Unit := forEach rest fun i => store i ops.zero

/-! ## The blocks -/

/-- The first `count` elements of a block of Q8_0. -/
def q8_0Block (count : Nat) : Decoder F Unit := do
  let scale ← scaleAt ops 0
  forEach count fun i => do
    let q ← int8 (2 + i)
    store i (ops.mul (ops.ofInt q) scale)

/-- `q4k_decode_scales`, of the 12 bytes at `sc12`: `scales[j]` and `mins[j]`. -/
def q4kDecodeScales (sc12 : Nat) (d dmin : F) : Decoder F (List (F × F)) :=
  gather 8 fun j =>
    if j < 4 then do
      let sc ← byte (sc12 + j)
      let m ← byte (sc12 + (j + 4))
      return (ops.mul (ops.ofInt (sc &&& 63 : Nat)) d, ops.mul (ops.ofInt (m &&& 63 : Nat)) dmin)
    else do
      let k := j - 4
      let q ← byte (sc12 + (k + 8))
      let lo ← byte (sc12 + k)
      let hi ← byte (sc12 + (k + 4))
      return (ops.mul (ops.ofInt ((q &&& 0x0F) ||| (lo >>> 6) <<< 4 : Nat)) d,
        ops.mul (ops.ofInt (q >>> 4 ||| (hi >>> 6) <<< 4 : Nat)) dmin)

def q4_KBlock : Decoder F Unit := do
  let d ← scaleAt ops 0
  let dmin ← scaleAt ops 2
  let scales ← q4kDecodeScales ops 4 d dmin
  forEach 4 fun g => do
    let (d1, m1) := scales.getD (g * 2) (ops.zero, ops.zero)
    let (d2, m2) := scales.getD (g * 2 + 1) (ops.zero, ops.zero)
    forEach 32 fun l => do
      let q ← byte (16 + g * 32 + l)
      store (g * 64 + l) (ops.sub (ops.mul d1 (ops.ofInt (q &&& 0xF : Nat))) m1)
    forEach 32 fun l => do
      let q ← byte (16 + g * 32 + l)
      store (g * 64 + (32 + l)) (ops.sub (ops.mul d2 (ops.ofInt (q >>> 4 : Nat))) m2)

def q4_0Block : Decoder F Unit := do
  let scale ← scaleAt ops 0
  forEach 16 fun i => do
    let q ← byte (2 + i)
    store i (ops.mul (ops.ofInt (((q &&& 0xF : Nat) : Int) - 8)) scale)
    store (i + 16) (ops.mul (ops.ofInt (((q >>> 4 : Nat) : Int) - 8)) scale)

/-- The two five-bit numbers of a byte: its nibbles, and above them the bits `i` and `i + 16` of `qh`. -/
def fiveBits (q qh i : Nat) : Nat × Nat :=
  ((q &&& 0xF) ||| ((qh >>> i) &&& 1) <<< 4, q >>> 4 ||| ((qh >>> (i + 16)) &&& 1) <<< 4)

def q5_0Block : Decoder F Unit := do
  let d ← scaleAt ops 0
  let qh ← word32 2
  forEach 16 fun i => do
    let q ← byte (6 + i)
    store i (ops.mul (ops.ofInt ((fiveBits q qh i).1 - 16)) d)
    store (i + 16) (ops.mul (ops.ofInt ((fiveBits q qh i).2 - 16)) d)

def q2_0Block : Decoder F Unit := do
  let d ← scaleAt ops 0
  forEach 128 fun j => do
    let q ← byte (2 + j / 4)
    store j (ops.mul (ops.ofInt (((q >>> (j % 4 * 2) &&& 0x3 : Nat) : Int) - 1)) d)

def q5_1Block : Decoder F Unit := do
  let d ← scaleAt ops 0
  let m ← scaleAt ops 2
  let qh ← word32 4
  forEach 16 fun i => do
    let q ← byte (8 + i)
    store i (ops.add (ops.mul (ops.ofInt (fiveBits q qh i).1) d) m)
    store (i + 16) (ops.add (ops.mul (ops.ofInt (fiveBits q qh i).2) d) m)

/-- In the group `g`, `ql` has advanced by 32 a group, `is` by 2, and `u1` and `u2` have been shifted by 2 a group. -/
def q5_KBlock : Decoder F Unit := do
  let d ← scaleAt ops 0
  let dmin ← scaleAt ops 2
  let scales ← q4kDecodeScales ops 4 d dmin
  forEach 4 fun g => do
    let (d1, m1) := scales.getD (g * 2) (ops.zero, ops.zero)
    let (d2, m2) := scales.getD (g * 2 + 1) (ops.zero, ops.zero)
    let u1 := 1 <<< (2 * g)
    let u2 := 2 <<< (2 * g)
    forEach 32 fun l => do
      let ql ← byte (48 + g * 32 + l)
      let qh ← byte (16 + l)
      store (g * 64 + l)
        (ops.sub (ops.mul d1 (ops.ofInt ((ql &&& 0xF) + if qh &&& u1 ≠ 0 then 16 else 0 : Nat))) m1)
      store (g * 64 + l + 32)
        (ops.sub (ops.mul d2 (ops.ofInt ((ql >>> 4) + if qh &&& u2 ≠ 0 then 16 else 0 : Nat))) m2)

/-- `kvalues_iq4nl` -/
def kvaluesIq4nl : List Int := [-127, -104, -83, -65, -49, -35, -22, -10, 1, 13, 25, 38, 53, 69, 89, 113]

def iq4_NLBlock : Decoder F Unit := do
  let d ← scaleAt ops 0
  let d := nanGuard ops d
  forEach 16 fun i => do
    let q ← byte (2 + i)
    store (i * 2) (ops.mul d (ops.ofInt (kvaluesIq4nl.getD (q &&& 0xF) 0)))
    store (i * 2 + 1) (ops.mul d (ops.ofInt (kvaluesIq4nl.getD (q >>> 4) 0)))

/-- `aux` of Q3_K after its unpacking, from the three words that were copied. -/
def q3kAux (aux0 aux1 tmp : Nat) : List Nat :=
  let kmask1 := 0x03030303
  let kmask2 := 0x0f0f0f0f
  [(aux0 &&& kmask2) ||| ((tmp >>> 0) &&& kmask1) <<< 4, (aux1 &&& kmask2) ||| ((tmp >>> 2) &&& kmask1) <<< 4,
    ((aux0 >>> 4) &&& kmask2) ||| ((tmp >>> 4) &&& kmask1) <<< 4, ((aux1 >>> 4) &&& kmask2) ||| ((tmp >>> 6) &&& kmask1) <<< 4]

/-- `scales[k]`, a byte of `aux`. All of them are below 64. -/
def q3kScale (aux : List Nat) (k : Nat) : Int := ((aux.getD (k / 4) 0 >>> (8 * (k % 4)) &&& 0xff : Nat) : Int)

/-- In the half `n` and the round `j`, `q` has advanced by 32 a half, `shift` is `2 * j`, `is` has advanced by 2 a round and
`m` by one bit a round, and `dst` by 32 a round. -/
def q3_KBlock : Decoder F Unit := do
  let d ← scaleAt ops 108
  let aux0 ← word32 96
  let aux1 ← word32 100
  let tmp ← word32 104
  let aux := q3kAux aux0 aux1 tmp
  forEach 2 fun n => forEach 4 fun j => do
    let is := n * 8 + j * 2
    let m := 1 <<< (n * 4 + j)
    let dst := n * 128 + j * 32
    let dl := ops.mul d (ops.ofInt (q3kScale aux is - 32))
    forEach 16 fun l => do
      let q ← byte (32 + n * 32 + l)
      let hm ← byte l
      store (dst + l) (ops.mul dl (ops.ofInt ((q >>> (j * 2) &&& 3 : Nat) - if hm &&& m ≠ 0 then 0 else 4)))
    let dl := ops.mul d (ops.ofInt (q3kScale aux (is + 1) - 32))
    forEach 16 fun l => do
      let q ← byte (32 + n * 32 + (l + 16))
      let hm ← byte (l + 16)
      store (dst + 16 + l) (ops.mul dl (ops.ofInt ((q >>> (j * 2) &&& 3 : Nat) - if hm &&& m ≠ 0 then 0 else 4)))

/-- In the half `n` and the round `j`, `is` has advanced by 2 a round and `shift` is `2 * j`. -/
def q2_KBlock : Decoder F Unit := do
  let d ← scaleAt ops 80
  let dmin ← scaleAt ops 82
  let d := nanGuard ops d
  let dmin := nanGuard ops dmin
  forEach 2 fun n => forEach 4 fun j => do
    let is := n * 8 + j * 2
    let sc ← byte is
    let dl := ops.mul d (ops.ofInt (sc &&& 0xF : Nat))
    let ml := ops.mul dmin (ops.ofInt (sc >>> 4 : Nat))
    forEach 16 fun l => do
      let q ← byte (16 + n * 32 + l)
      store (n * 128 + j * 32 + l) (ops.sub (ops.mul dl (ops.ofInt (q >>> (j * 2) &&& 3 : Nat))) ml)
    let sc ← byte (is + 1)
    let dl := ops.mul d (ops.ofInt (sc &&& 0xF : Nat))
    let ml := ops.mul dmin (ops.ofInt (sc >>> 4 : Nat))
    forEach 16 fun l => do
      let q ← byte (16 + n * 32 + (l + 16))
      store (n * 128 + j * 32 + 16 + l) (ops.sub (ops.mul dl (ops.ofInt (q >>> (j * 2) &&& 3 : Nat))) ml)

/-- A six-bit number of Q6_K: a nibble, and two bits of `qh` above it. -/
def sixBits (nibble qh shift : Nat) : Int := ((nibble ||| (qh >>> shift &&& 3) <<< 4 : Nat) : Int) - 32

def q6_KBlock : Decoder F Unit := do
  let d ← scaleAt ops 208
  forEach 2 fun half => forEach 32 fun l => do
    let is := l / 16
    let ql0 ← byte (half * 64 + l)
    let ql1 ← byte (half * 64 + (l + 32))
    let qh ← byte (128 + half * 32 + l)
    let sc0 ← int8 (192 + half * 8 + is)
    let sc1 ← int8 (192 + half * 8 + (is + 2))
    let sc2 ← int8 (192 + half * 8 + (is + 4))
    let sc3 ← int8 (192 + half * 8 + (is + 6))
    store (half * 128 + l) (ops.mul (ops.mul d (ops.ofInt sc0)) (ops.ofInt (sixBits (ql0 &&& 0xF) qh 0)))
    store (half * 128 + (l + 32)) (ops.mul (ops.mul d (ops.ofInt sc1)) (ops.ofInt (sixBits (ql1 &&& 0xF) qh 2)))
    store (half * 128 + (l + 64)) (ops.mul (ops.mul d (ops.ofInt sc2)) (ops.ofInt (sixBits (ql0 >>> 4) qh 4)))
    store (half * 128 + (l + 96)) (ops.mul (ops.mul d (ops.ofInt sc3)) (ops.ofInt (sixBits (ql1 >>> 4) qh 6)))

/-! ## The decoders -/

/-- The blocks of an array, and its rest. -/
def decodeBlocks (block : Decoder F Unit) (bytes cells : Nat) (tail : Nat → Decoder F Unit) (nElems : Nat) :
    Decoder F Unit := do
  let nBlocks := nElems / cells
  block.blocks bytes cells nBlocks
  let rest := nElems - nBlocks * cells
  if rest > 0 then (tail rest).shift (nBlocks * bytes) (nBlocks * cells)

/-- `gguf_dequant_q8_0`, whose last block may be a part of one. -/
def ggufDequantQ8_0 (nElems : Nat) : Decoder F Unit := decodeBlocks (q8_0Block ops 32) 34 32 (q8_0Block ops) nElems

def ggufDequantQ4_K (nElems : Nat) : Decoder F Unit := decodeBlocks (q4_KBlock ops) 144 256 (zeroTail ops) nElems

/-- `gguf_dequant_q4_0`, which has no code for a rest. -/
def ggufDequantQ4_0 (nElems : Nat) : Decoder F Unit := (q4_0Block ops).blocks 18 32 (nElems / 32)

def ggufDequantQ5_0 (nElems : Nat) : Decoder F Unit := decodeBlocks (q5_0Block ops) 22 32 (zeroTail ops) nElems

def ggufDequantQ2_0 (nElems : Nat) : Decoder F Unit := decodeBlocks (q2_0Block ops) 34 128 (zeroTail ops) nElems

def ggufDequantQ5_1 (nElems : Nat) : Decoder F Unit := decodeBlocks (q5_1Block ops) 24 32 (zeroTail ops) nElems

def ggufDequantQ5_K (nElems : Nat) : Decoder F Unit := decodeBlocks (q5_KBlock ops) 176 256 (zeroTail ops) nElems

def ggufDequantIq4_NL (nElems : Nat) : Decoder F Unit := decodeBlocks (iq4_NLBlock ops) 18 32 (zeroTail ops) nElems

def ggufDequantQ3_K (nElems : Nat) : Decoder F Unit := decodeBlocks (q3_KBlock ops) 110 256 (zeroTail ops) nElems

def ggufDequantQ2_K (nElems : Nat) : Decoder F Unit := decodeBlocks (q2_KBlock ops) 84 256 (zeroTail ops) nElems

def ggufDequantQ6_K (nElems : Nat) : Decoder F Unit := decodeBlocks (q6_KBlock ops) 210 256 (zeroTail ops) nElems

/-- The decoder of a type in `tensor_to_f32`, where there is one. -/
def dequantOf : GGUFType → Option (Nat → Decoder F Unit)
  | .q8_0 => some (ggufDequantQ8_0 ops)
  | .q4_K => some (ggufDequantQ4_K ops)
  | .q4_0 => some (ggufDequantQ4_0 ops)
  | .q5_0 => some (ggufDequantQ5_0 ops)
  | .q5_1 => some (ggufDequantQ5_1 ops)
  | .q5_K => some (ggufDequantQ5_K ops)
  | .q6_K => some (ggufDequantQ6_K ops)
  | .q2_K => some (ggufDequantQ2_K ops)
  | .q3_K => some (ggufDequantQ3_K ops)
  | .iq4_NL => some (ggufDequantIq4_NL ops)
  | .q2_0 => some (ggufDequantQ2_0 ops)
  | _ => none

/-! ## The sizes -/

/-- The number of a type, as the cast to `int` gives it. -/
def GGUFType.code : GGUFType → Nat
  | .f32 => 0
  | .f16 => 1
  | .q4_0 => 2
  | .q4_1 => 3
  | .q5_0 => 6
  | .q5_1 => 7
  | .q8_0 => 8
  | .q8_1 => 9
  | .q2_K => 10
  | .q3_K => 11
  | .q4_K => 12
  | .q5_K => 13
  | .q6_K => 14
  | .q8_K => 15
  | .iq2_XXS => 16
  | .iq4_NL => 20
  | .i8 => 24
  | .i16 => 25
  | .i32 => 26
  | .i64 => 27
  | .f64 => 28
  | .bf16 => 30
  | .q2_0 => 42
  | .other n => n

/-- `quant_bytes_for_elems`, in `size_t`. -/
def quantBytesForElems (t : GGUFType) (nElems : Nat) : Nat :=
  match t with
  | .f32 => nElems * 4 % 2 ^ 64
  | .f16 => nElems * 2 % 2 ^ 64
  | .bf16 => nElems * 2 % 2 ^ 64
  | .q8_0 => nElems / 32 * 34 % 2 ^ 64
  | .q4_0 => nElems / 32 * 18 % 2 ^ 64
  | .q5_0 => nElems / 32 * 22 % 2 ^ 64
  | .q5_1 => nElems / 32 * 24 % 2 ^ 64
  | .q4_K => nElems / 256 * 144 % 2 ^ 64
  | .q5_K => nElems / 256 * 176 % 2 ^ 64
  | .q6_K => nElems / 256 * 210 % 2 ^ 64
  | .q2_K => nElems / 256 * 84 % 2 ^ 64
  | .q3_K => nElems / 256 * 110 % 2 ^ 64
  | .iq4_NL => nElems / 32 * 18 % 2 ^ 64
  | _ => 0

/-- `quant_tensor_bytes`, in `size_t`. -/
def quantTensorBytes (quantType nElems : Nat) : Nat :=
  match quantType with
  | 10 => nElems / 256 * 84 % 2 ^ 64
  | 11 => nElems / 256 * 110 % 2 ^ 64
  | 12 => nElems / 256 * 144 % 2 ^ 64
  | 13 => nElems / 256 * 176 % 2 ^ 64
  | 14 => nElems / 256 * 210 % 2 ^ 64
  | 6 => nElems / 32 * 22 % 2 ^ 64
  | 7 => nElems / 32 * 24 % 2 ^ 64
  | 8 => nElems / 32 * 34 % 2 ^ 64
  | 20 => nElems / 32 * 18 % 2 ^ 64
  | _ => nElems * 4 % 2 ^ 64

/-- The strides of the stacked experts of a layer; `none` is the error that a type is unknown. -/
def expertStrides (gate up down : GGUFType) (expertElems : Nat) : Option (Nat × Nat × Nat) :=
  let g := quantBytesForElems gate expertElems
  let u := quantBytesForElems up expertElems
  let d := quantBytesForElems down expertElems
  if g = 0 ∨ u = 0 ∨ d = 0 then none else some (g, u, d)

/-- The bytes of the blocks of an array, by `gguf_block_size` and `gguf_block_elems`. -/
def blockBytes (t : GGUFType) (nElems : Nat) : Nat :=
  (nElems + ggufBlockElems t - 1) / ggufBlockElems t * ggufBlockSize t

/-! ## What a block touches -/

variable {ops}

section

variable {data : Nat → UInt8} {r i : Nat}

@[simp] theorem reads_scaleAt (o : Nat) : Reads (scaleAt ops o) data r ↔ r = o ∨ r = o + 1 := by simp [scaleAt]

@[simp] theorem stores_scaleAt (o : Nat) : Stores (scaleAt ops o) data i ↔ False := by simp [scaleAt]

@[simp] theorem stores_q4kDecodeScales (sc12 : Nat) (d dmin : F) :
    Stores (q4kDecodeScales ops sc12 d dmin) data i ↔ False := by
  simp [q4kDecodeScales]

/-- The scales and minima of a super-block are in its 12 bytes. -/
theorem reads_q4kDecodeScales {sc12 : Nat} {d dmin : F} (h : Reads (q4kDecodeScales ops sc12 d dmin) data r) :
    sc12 ≤ r ∧ r < sc12 + 12 := by
  simp [q4kDecodeScales] at h
  obtain ⟨k, hk, h⟩ := h
  split at h <;> omega

end

theorem zeroTail_isBlock (rest : Nat) : IsBlock (zeroTail ops rest) 0 rest where
  reads data r hr := by simp [zeroTail] at hr
  stores data i := by simp [zeroTail]

theorem q8_0Block_isBlock {count : Nat} (h : count ≤ 32) : IsBlock (q8_0Block ops count) 34 count where
  reads data r hr := by
    simp [q8_0Block] at hr
    rcases hr with hr | ⟨k, hk, rfl⟩ <;> omega
  stores data i := by simp [q8_0Block]

theorem q4_KBlock_isBlock : IsBlock (q4_KBlock ops) 144 256 where
  reads data r hr := by
    simp [q4_KBlock] at hr
    rcases hr with hr | hr | hr | ⟨g, hg, l, hl, rfl⟩
    · omega
    · omega
    · have := reads_q4kDecodeScales hr
      omega
    · omega
  stores data i := by
    simp [q4_KBlock]
    constructor
    · rintro ⟨g, hg, ⟨l, hl, rfl⟩ | ⟨l, hl, rfl⟩⟩ <;> omega
    · intro hi
      refine ⟨i / 64, by omega, ?_⟩
      by_cases hlow : i % 64 < 32
      · exact .inl ⟨i % 64, hlow, by omega⟩
      · exact .inr ⟨i % 64 - 32, by omega, by omega⟩

/-- The elements `k` and `k + 16` of 16 rounds are 32. -/
theorem halves_lt {i : Nat} : (∃ k < 16, i = k ∨ i = k + 16) ↔ i < 32 := by
  constructor
  · rintro ⟨k, hk, rfl | rfl⟩ <;> omega
  · intro hi
    exact ⟨i % 16, by omega, by omega⟩

theorem q4_0Block_isBlock : IsBlock (q4_0Block ops) 18 32 where
  reads data r hr := by
    simp [q4_0Block] at hr
    rcases hr with hr | ⟨k, hk, rfl⟩ <;> omega
  stores data i := by simpa [q4_0Block] using halves_lt

theorem q5_0Block_isBlock : IsBlock (q5_0Block ops) 22 32 where
  reads data r hr := by
    simp [q5_0Block] at hr
    rcases hr with hr | hr | ⟨k, hk, rfl⟩ <;> omega
  stores data i := by simpa [q5_0Block] using halves_lt

theorem q5_1Block_isBlock : IsBlock (q5_1Block ops) 24 32 where
  reads data r hr := by
    simp [q5_1Block] at hr
    rcases hr with hr | hr | hr | ⟨k, hk, rfl⟩ <;> omega
  stores data i := by simpa [q5_1Block] using halves_lt

theorem q2_0Block_isBlock : IsBlock (q2_0Block ops) 34 128 where
  reads data r hr := by
    simp [q2_0Block] at hr
    rcases hr with hr | ⟨k, hk, rfl⟩ <;> omega
  stores data i := by simp [q2_0Block]

theorem q5_KBlock_isBlock : IsBlock (q5_KBlock ops) 176 256 where
  reads data r hr := by
    simp [q5_KBlock] at hr
    rcases hr with hr | hr | hr | ⟨g, hg, l, hl, hr⟩
    · omega
    · omega
    · have := reads_q4kDecodeScales hr
      omega
    · omega
  stores data i := by
    simp [q5_KBlock]
    constructor
    · rintro ⟨g, hg, l, hl, rfl | rfl⟩ <;> omega
    · intro hi
      exact ⟨i / 64, by omega, i % 32, by omega, by omega⟩

theorem iq4_NLBlock_isBlock : IsBlock (iq4_NLBlock ops) 18 32 where
  reads data r hr := by
    simp [iq4_NLBlock] at hr
    rcases hr with hr | ⟨k, hk, rfl⟩ <;> omega
  stores data i := by
    simp [iq4_NLBlock]
    constructor
    · rintro ⟨k, hk, rfl | rfl⟩ <;> omega
    · intro hi
      exact ⟨i / 2, by omega, by omega⟩

/-- Two halves of four rounds, each of two times 16 elements, are 256. -/
theorem rounds_lt {i : Nat} :
    (∃ n < 2, ∃ j < 4, (∃ l < 16, i = n * 128 + j * 32 + l) ∨ ∃ l < 16, i = n * 128 + j * 32 + 16 + l) ↔ i < 256 := by
  constructor
  · rintro ⟨n, hn, j, hj, ⟨l, hl, rfl⟩ | ⟨l, hl, rfl⟩⟩ <;> omega
  · intro hi
    refine ⟨i / 128, by omega, i % 128 / 32, by omega, ?_⟩
    by_cases hlow : i % 32 < 16
    · exact .inl ⟨i % 32, hlow, by omega⟩
    · exact .inr ⟨i % 32 - 16, by omega, by omega⟩

theorem q3_KBlock_isBlock : IsBlock (q3_KBlock ops) 110 256 where
  reads data r hr := by
    simp [q3_KBlock] at hr
    rcases hr with hr | hr | hr | hr | ⟨n, hn, -, ⟨l, hl, hr⟩ | ⟨l, hl, hr⟩⟩ <;> omega
  stores data i := by
    rw [← rounds_lt]
    simp [q3_KBlock]

theorem q2_KBlock_isBlock : IsBlock (q2_KBlock ops) 84 256 where
  reads data r hr := by
    simp [q2_KBlock] at hr
    rcases hr with hr | hr | ⟨n, hn, j, hj, hr | ⟨l, hl, hr⟩ | hr | ⟨l, hl, hr⟩⟩ <;> omega
  stores data i := by
    rw [← rounds_lt]
    simp [q2_KBlock]

theorem q6_KBlock_isBlock : IsBlock (q6_KBlock ops) 210 256 where
  reads data r hr := by
    simp [q6_KBlock] at hr
    rcases hr with hr | ⟨half, hhalf, l, hl, hr⟩ <;> omega
  stores data i := by
    simp [q6_KBlock]
    constructor
    · rintro ⟨half, hhalf, l, hl, hi⟩
      omega
    · intro hi
      exact ⟨i / 128, by omega, i % 32, by omega, by omega⟩

/-! ## What an array touches -/

/-- The rest of an array is less than a block, and begins another one. -/
theorem blocks_with_rest {nElems cells : Nat} (hcells : 0 < cells) :
    nElems / cells ≤ (nElems + cells - 1) / cells ∧ nElems - nElems / cells * cells < cells ∧
      (0 < nElems - nElems / cells * cells → nElems / cells + 1 ≤ (nElems + cells - 1) / cells) := by
  have hdiv := Nat.div_add_mod nElems cells
  have hmod := Nat.mod_lt nElems hcells
  rw [Nat.mul_comm] at hdiv
  refine ⟨Nat.div_le_div_right (by omega), by omega, fun hrest => ?_⟩
  rw [Nat.le_div_iff_mul_le hcells, Nat.succ_mul]
  omega

/-- The blocks and the rest cover the array, and read no more than its blocks. -/
theorem decodeBlocks_isBlock {block : Decoder F Unit} {bytes cells : Nat} {tail : Nat → Decoder F Unit} {tailBytes : Nat}
    (hblock : IsBlock block bytes cells) (hcells : 0 < cells) (htail : ∀ rest < cells, IsBlock (tail rest) tailBytes rest)
    (hbytes : tailBytes ≤ bytes) (nElems : Nat) :
    IsBlock (decodeBlocks block bytes cells tail nElems) ((nElems + cells - 1) / cells * bytes) nElems := by
  obtain ⟨hle, hrest, hceil⟩ := @blocks_with_rest nElems cells hcells
  have hwhole := hblock.blocks (nElems / cells)
  have hblocks := Nat.mul_le_mul_right bytes hle
  have hmul := Nat.div_mul_le_self nElems cells
  unfold decodeBlocks
  dsimp only
  by_cases hzero : nElems - nElems / cells * cells > 0
  · have happend := hwhole.append (htail _ hrest)
    have hmore := Nat.mul_le_mul_right bytes (hceil hzero)
    rw [Nat.succ_mul] at hmore
    simp only [if_pos hzero]
    refine ⟨fun data r hr => ?_, fun data i => ?_⟩
    · have := happend.reads data r hr
      omega
    · rw [happend.stores data i]
      omega
  · simp only [if_neg hzero]
    refine ⟨fun data r hr => ?_, fun data i => ?_⟩
    · have := hwhole.reads data r (by simpa using hr)
      omega
    · have := hwhole.stores data i
      simp only [Decoder.stores_bind, Decoder.stores_pure, or_false, this]
      omega

/-- A decoder that fills the rest with zeros. -/
theorem zeroFilled_isBlock {block : Decoder F Unit} {bytes cells : Nat} (hblock : IsBlock block bytes cells)
    (hcells : 0 < cells) (nElems : Nat) :
    IsBlock (decodeBlocks block bytes cells (zeroTail ops) nElems) ((nElems + cells - 1) / cells * bytes) nElems :=
  decodeBlocks_isBlock hblock hcells (fun rest _ => zeroTail_isBlock rest) (Nat.zero_le bytes) nElems

/-- Q4_0 covers the whole blocks only. -/
theorem ggufDequantQ4_0_isBlock (nElems : Nat) :
    IsBlock (ggufDequantQ4_0 ops nElems) (nElems / 32 * 18) (nElems / 32 * 32) := q4_0Block_isBlock.blocks _

variable {t : GGUFType} {d : Nat → Decoder F Unit}

/-- Every decoder but that of Q4_0 covers any number of elements. -/
theorem dequantOf_isBlock (ht : dequantOf ops t = some d) {nElems : Nat} (hrest : t = .q4_0 → 32 ∣ nElems) :
    IsBlock (d nElems) (blockBytes t nElems) nElems := by
  cases t <;> cases ht
  case q8_0 =>
    exact decodeBlocks_isBlock (q8_0Block_isBlock (le_refl 32)) (by decide) (fun rest h => q8_0Block_isBlock h.le)
      (le_refl 34) nElems
  case q4_0 =>
    obtain ⟨k, rfl⟩ := hrest rfl
    have hcells : 32 * k / 32 * 32 = 32 * k := by omega
    have hbytes : 32 * k / 32 * 18 = blockBytes .q4_0 (32 * k) := by
      show 32 * k / 32 * 18 = (32 * k + 32 - 1) / 32 * (2 + 16)
      omega
    have := @ggufDequantQ4_0_isBlock F ops (32 * k)
    rwa [hcells, hbytes] at this
  case q4_K => exact zeroFilled_isBlock q4_KBlock_isBlock (by decide) nElems
  case q5_0 => exact zeroFilled_isBlock q5_0Block_isBlock (by decide) nElems
  case q5_1 => exact zeroFilled_isBlock q5_1Block_isBlock (by decide) nElems
  case q2_K => exact zeroFilled_isBlock q2_KBlock_isBlock (by decide) nElems
  case q3_K => exact zeroFilled_isBlock q3_KBlock_isBlock (by decide) nElems
  case q5_K => exact zeroFilled_isBlock q5_KBlock_isBlock (by decide) nElems
  case q6_K => exact zeroFilled_isBlock q6_KBlock_isBlock (by decide) nElems
  case iq4_NL => exact zeroFilled_isBlock iq4_NLBlock_isBlock (by decide) nElems
  case q2_0 => exact zeroFilled_isBlock q2_0Block_isBlock (by decide) nElems

/-- No decoder leaves its output or its blocks. -/
theorem dequantOf_inside (ht : dequantOf ops t = some d) (nElems : Nat) :
    (∀ data i, Stores (d nElems) data i → i < nElems) ∧ ∀ data r, Reads (d nElems) data r → r < blockBytes t nElems := by
  by_cases hq4 : t = .q4_0
  · subst hq4
    cases ht
    have hblock := @ggufDequantQ4_0_isBlock F ops nElems
    have hbytes : nElems / 32 * 18 ≤ blockBytes .q4_0 nElems := by
      show nElems / 32 * 18 ≤ (nElems + 32 - 1) / 32 * (2 + 16)
      omega
    refine ⟨fun data i hi => ?_, fun data r hr => ?_⟩
    · have := (hblock.stores data i).1 hi
      omega
    · exact (hblock.reads data r hr).trans_le hbytes
  · have hblock := @dequantOf_isBlock F ops t d ht nElems fun h => absurd h hq4
    exact ⟨fun data i => (hblock.stores data i).1, hblock.reads⟩

/-! ## The tables of sizes -/

theorem quantBytesForElems_eq (ht : dequantOf ops t = some d) (hq2 : t ≠ .q2_0) {nElems : Nat}
    (hdvd : ggufBlockElems t ∣ nElems) : quantBytesForElems t nElems = blockBytes t nElems % 2 ^ 64 := by
  obtain ⟨k, rfl⟩ := hdvd
  cases t <;> cases ht <;> first | exact absurd rfl hq2 | skip
  all_goals
    unfold quantBytesForElems blockBytes ggufBlockElems ggufBlockSize
    dsimp only
    omega

/-- The types that both tables have are sized alike. -/
theorem quantTensorBytes_eq_loader (ht : dequantOf ops t = some d) (hq4 : t ≠ .q4_0) (hq2 : t ≠ .q2_0) (nElems : Nat) :
    quantTensorBytes t.code nElems = quantBytesForElems t nElems := by
  cases t <;> cases ht <;> first | exact absurd rfl hq2 | exact absurd rfl hq4 | rfl

/-- The loaders take no experts of a type that the table does not have. -/
theorem expertStrides_q2_0 {gate up down : GGUFType} (h : gate = .q2_0 ∨ up = .q2_0 ∨ down = .q2_0) (nElems : Nat) :
    expertStrides gate up down nElems = none := by
  unfold expertStrides
  dsimp only
  have hzero : quantBytesForElems .q2_0 nElems = 0 := rfl
  rcases h with rfl | rfl | rfl
  · exact if_pos (.inl hzero)
  · exact if_pos (.inr (.inl hzero))
  · exact if_pos (.inr (.inr hzero))

/-! ## The agreement -/

/-- All that a decoder and the tables may be asked for: it covers the output, stays inside of it and of its blocks, and both
sizes are those of the blocks. -/
structure AgreesThroughout (d : Nat → Decoder F Unit) (t : GGUFType) (nElems : Nat) : Prop where
  block : IsBlock (d nElems) (blockBytes t nElems) nElems
  loaderBytes : ggufBlockElems t ∣ nElems → quantBytesForElems t nElems = blockBytes t nElems % 2 ^ 64
  tensorBytes : ggufBlockElems t ∣ nElems → quantTensorBytes t.code nElems = blockBytes t nElems % 2 ^ 64

/-- An arithmetic of one number. -/
def unitOps : FloatOps Unit where
  ofBits _ := ()
  ofInt _ := ()
  add _ _ := ()
  sub _ _ := ()
  mul _ _ := ()
  isNan _ := false

/-- Not all types agree: the loaders have no size for experts of Q2_0, a rest of Q4_0 is not written, and experts of Q4_0
are sized as floats. -/
theorem not_agreesThroughout :
    (¬ ∀ (t : GGUFType) (d : Nat → Decoder Unit Unit) (nElems : Nat), dequantOf unitOps t = some d →
      AgreesThroughout d t nElems) ∧
      quantBytesForElems .q2_0 128 ≠ blockBytes .q2_0 128 ∧ ¬ Stores (ggufDequantQ4_0 unitOps 33) (fun _ => 0) 32 ∧
      quantTensorBytes GGUFType.q4_0.code 32 ≠ blockBytes .q4_0 32 := by
  refine ⟨fun h => ?_, by decide, fun h => ?_, by decide⟩
  · exact absurd ((h .q2_0 _ 128 rfl).loaderBytes (by decide)) (by decide)
  · exact absurd ((ggufDequantQ4_0_isBlock 33).stores _ _ |>.1 h) (by decide)

/-- What the decoders and the tables agree on, for every type that the loaders dequantize and any number of elements: the
decoder writes the output and nothing beyond it, from the bytes of its blocks only, and the sizes of the blocks are what
the tables give for the types that experts may have. A type without a size is refused. -/
theorem dequantOf_agrees (ht : dequantOf ops t = some d) (nElems : Nat) :
    ((∀ data i, Stores (d nElems) data i → i < nElems) ∧ ∀ data r, Reads (d nElems) data r → r < blockBytes t nElems) ∧
      ((t = .q4_0 → 32 ∣ nElems) → ∀ data i, i < nElems → Stores (d nElems) data i) ∧
      (ggufBlockElems t ∣ nElems → t ≠ .q2_0 → quantBytesForElems t nElems = blockBytes t nElems % 2 ^ 64) ∧
      (ggufBlockElems t ∣ nElems → t ≠ .q4_0 → t ≠ .q2_0 →
        quantTensorBytes t.code nElems = blockBytes t nElems % 2 ^ 64) ∧
      ∀ gate up down, t = .q2_0 → t = gate ∨ t = up ∨ t = down → expertStrides gate up down nElems = none := by
  refine ⟨dequantOf_inside ht nElems, fun hrest data i => ((dequantOf_isBlock ht hrest).stores data i).2,
    fun hdvd hq2 => quantBytesForElems_eq ht hq2 hdvd, fun hdvd hq4 hq2 =>
      (quantTensorBytes_eq_loader ht hq4 hq2 nElems).trans (quantBytesForElems_eq ht hq2 hdvd), ?_⟩
  rintro gate up down rfl hexperts
  exact expertStrides_q2_0 (hexperts.imp Eq.symm (Or.imp Eq.symm Eq.symm)) nElems

/-- An arithmetic of whole numbers. -/
def intOps : FloatOps Int where
  ofBits b := b
  ofInt i := i
  add a b := a + b
  sub a b := a - b
  mul a b := a * b
  isNan _ := false

theorem dequantOf_agrees_q5_0 : Stores (ggufDequantQ5_0 intOps 40) (fun i => UInt8.ofNat i) 39 ∧
    quantTensorBytes GGUFType.q5_0.code 64 = blockBytes .q5_0 64 % 2 ^ 64 :=
  ⟨(@dequantOf_agrees Int intOps .q5_0 _ rfl 40).2.1 nofun _ 39 (by decide),
    (@dequantOf_agrees Int intOps .q5_0 _ rfl 64).2.2.2.1 (by decide) nofun nofun⟩

end BitForge.Gguf
