/-
The GGUF header reader of `core/gguf_reader.c` over a mapped file. Pointers are 64-bit numbers and
their arithmetic wraps; what a read finds outside the mapping is arbitrary. The recursion of
`skip_meta_value` has a depth given from outside, beyond which the outcome is `deep`. Scalars of the
metadata are kept as their little-endian bits.
-/
import BitForge.Lib.CString
import BitForge.Lib.Logged

namespace BitForge.Gguf

open BitForge.Lib

/-! ## The format's enumerations -/

inductive GGUFValType
  | uint8
  | int8
  | uint16
  | int16
  | uint32
  | int32
  | float32
  | bool
  | string
  | array
  | uint64
  | int64
  | float64
  | other (code : Nat)
deriving DecidableEq, Repr

/-- The cast `(GGUFValType)` of a 32-bit word. -/
def GGUFValType.ofCode : Nat → GGUFValType
  | 0 => .uint8
  | 1 => .int8
  | 2 => .uint16
  | 3 => .int16
  | 4 => .uint32
  | 5 => .int32
  | 6 => .float32
  | 7 => .bool
  | 8 => .string
  | 9 => .array
  | 10 => .uint64
  | 11 => .int64
  | 12 => .float64
  | n => .other n

/-- The bytes of a scalar value, as the `switch` branches of `skip_meta_value` and `parse_meta_entry` count them. -/
def GGUFValType.scalarBytes : GGUFValType → Option Nat
  | .uint8 | .int8 | .bool => some 1
  | .uint16 | .int16 => some 2
  | .uint32 | .int32 | .float32 => some 4
  | .uint64 | .int64 | .float64 => some 8
  | .string | .array | .other _ => none

inductive GGUFType
  | f32
  | f16
  | q4_0
  | q4_1
  | q5_0
  | q5_1
  | q8_0
  | q8_1
  | q2_K
  | q3_K
  | q4_K
  | q5_K
  | q6_K
  | q8_K
  | iq2_XXS
  | iq4_NL
  | i8
  | i16
  | i32
  | i64
  | f64
  | bf16
  | q2_0
  | other (code : Nat)
deriving DecidableEq, Repr

/-- The cast `(GGUFType)` of a 32-bit word. -/
def GGUFType.ofCode : Nat → GGUFType
  | 0 => .f32
  | 1 => .f16
  | 2 => .q4_0
  | 3 => .q4_1
  | 6 => .q5_0
  | 7 => .q5_1
  | 8 => .q8_0
  | 9 => .q8_1
  | 10 => .q2_K
  | 11 => .q3_K
  | 12 => .q4_K
  | 13 => .q5_K
  | 14 => .q6_K
  | 15 => .q8_K
  | 16 => .iq2_XXS
  | 20 => .iq4_NL
  | 24 => .i8
  | 25 => .i16
  | 26 => .i32
  | 27 => .i64
  | 28 => .f64
  | 30 => .bf16
  | 42 => .q2_0
  | n => .other n

/-- `gguf_block_size`. -/
def ggufBlockSize : GGUFType → Nat
  | .f32 => 4
  | .f16 => 2
  | .bf16 => 2
  | .q4_0 => 2 + 16
  | .q4_1 => 4 + 16
  | .q5_0 => 2 + 4 + 16
  | .q5_1 => 4 + 4 + 16
  | .q8_0 => 2 + 32
  | .q8_1 => 4 + 4 + 32
  | .q2_K => 84
  | .q3_K => 110
  | .q4_K => 144
  | .q5_K => 176
  | .q6_K => 210
  | .q8_K => 292
  | .iq4_NL => 18
  | .q2_0 => 2 + 32
  | .i8 => 1
  | .i16 => 2
  | .i32 => 4
  | .i64 => 8
  | .f64 => 8
  | .iq2_XXS | .other _ => 0

/-- `gguf_block_elems`. -/
def ggufBlockElems : GGUFType → Nat
  | .q4_0 | .q4_1 | .q5_0 | .q5_1 | .q8_0 | .q8_1 | .iq4_NL => 32
  | .q2_0 => 128
  | .q2_K | .q3_K | .q4_K | .q5_K | .q6_K | .q8_K => 256
  | _ => 1

/-! ## The mapped file and the cursor -/

/-- A mapping of `size` bytes at `base`; `mem` is the memory around it too. The last page of the
address space is never mapped. -/
structure Mapped where
  base : Nat
  size : Nat
  mem : Nat → UInt8
  below : base + size + 4096 ≤ 2 ^ 64

/-- `end`. -/
def Mapped.last (m : Mapped) : Nat := m.base + m.size

/-- The bytes from an address on. -/
def Mapped.bytes (m : Mapped) (p n : Nat) : List UInt8 := (List.range n).map fun i => m.mem ((p + i) % 2 ^ 64)

/-- A little-endian number. -/
def leValue : List UInt8 → Nat
  | [] => 0
  | b :: bs => b.toNat + 256 * leValue bs

/-- The number that the `n` bytes from an address on hold. -/
def Mapped.num (m : Mapped) (p n : Nat) : Nat := leValue (m.bytes p n)

/-- The pointer `p` and the number of times that it was moved or copied from. -/
structure Cursor where
  p : Nat
  steps : Nat
deriving DecidableEq, Repr

/-- What the reader does that may go wrong. -/
inductive Event
  /-- `n` bytes read at `p` -/
  | read (p n : Nat)
  /-- the comparison `p + len > end` with a 64-bit length from the file -/
  | length (p len : Nat)
  /-- `n` bytes of a scalar metadata value read at `p` with no comparison before -/
  | scalar (p n : Nat)
deriving DecidableEq, Repr

abbrev Reader (α : Type) := Prog Event Cursor α

def cursor : Reader Nat := fun c => ⟨.ok c.p, c, []⟩

/-- `if (*p + n > end) return -1`. -/
def require (m : Mapped) (n : Nat) : Reader Unit := fun c =>
  if (c.p + n) % 2 ^ 64 > m.last then ⟨.fail, c, []⟩ else ⟨.ok (), c, []⟩

/-- `if (*p >= end) return -1`. -/
def requireMore (m : Mapped) : Reader Unit := fun c =>
  if c.p ≥ m.last then ⟨.fail, c, []⟩ else ⟨.ok (), c, []⟩

/-- `if (*p + len > end) return -1` with a length from the file. -/
def requireLength (m : Mapped) (len : Nat) : Reader Unit := fun c =>
  if (c.p + len) % 2 ^ 64 > m.last then ⟨.fail, c, [.length c.p len]⟩ else ⟨.ok (), c, [.length c.p len]⟩

/-- `read_u8`, `read_u16`, `read_u32` and `read_u64`: `n` is 1, 2, 4 or 8. -/
def readNum (m : Mapped) (n : Nat) : Reader Nat := fun c =>
  ⟨.ok (m.num c.p n), ⟨(c.p + n) % 2 ^ 64, c.steps + 1⟩, [.read c.p n]⟩

/-- A scalar of a metadata entry: the same read, with no comparison before it. -/
def readScalar (m : Mapped) (n : Nat) : Reader Nat := fun c =>
  ⟨.ok (m.num c.p n), ⟨(c.p + n) % 2 ^ 64, c.steps + 1⟩, [.scalar c.p n]⟩

/-- `memcpy` of `n` bytes from the cursor, which stays where it is. -/
def copyBytes (m : Mapped) (n : Nat) : Reader (List UInt8) := fun c =>
  ⟨.ok (m.bytes c.p n), ⟨c.p, c.steps + 1⟩, [.read c.p n]⟩

/-- `*p += n`. -/
def advance (n : Nat) : Reader Unit := fun c => ⟨.ok (), ⟨(c.p + n) % 2 ^ 64, c.steps + 1⟩, []⟩

/-! ## Strings and metadata -/

def ggufMaxKeyLen : Nat := 256

/-- `read_str`; the text has at most `outSz - 1` bytes. -/
def readStr (m : Mapped) (outSz : Nat) : Reader (List UInt8) := do
  require m 8
  let len ← readNum m 8
  requireLength m len
  let out ← copyBytes m (if len < outSz - 1 then len else outSz - 1)
  advance len
  pure out

/-- `skip_meta_value`. -/
def skipMetaValue (m : Mapped) : Nat → GGUFValType → Reader Unit
  | 0, _ => do
    requireMore m
    Prog.deep
  | depth + 1, vtype => do
    requireMore m
    match vtype.scalarBytes with
    | some n => advance n
    | none =>
      match vtype with
      | .string =>
        require m 8
        let slen ← readNum m 8
        requireLength m slen
        advance slen
      | .array =>
        require m 12
        let elemType ← readNum m 4
        let count ← readNum m 8
        Prog.repeatN count (skipMetaValue m depth (.ofCode elemType))
      | _ => Prog.fail

/-- The union of `GGUFMeta`. -/
inductive MetaVal
  | scalar (bits : Nat)
  | string (str : List UInt8) (len : Nat)
  | array (elemType : GGUFValType) (count data : Nat)
deriving DecidableEq, Repr

structure GGUFMeta where
  key : List UInt8
  valType : GGUFValType
  val : MetaVal
deriving DecidableEq, Repr

/-- `parse_meta_entry`; `alloc` says whether `malloc` succeeds for a size. -/
def parseMetaEntry (m : Mapped) (alloc : Nat → Bool) (depth : Nat) : Reader GGUFMeta := do
  let key ← readStr m ggufMaxKeyLen
  require m 4
  let code ← readNum m 4
  let vtype := GGUFValType.ofCode code
  match vtype.scalarBytes with
  | some n =>
    let bits ← readScalar m n
    pure ⟨key, vtype, .scalar bits⟩
  | none =>
    match vtype with
    | .string =>
      require m 8
      let slen ← readNum m 8
      requireLength m slen
      if alloc ((slen + 1) % 2 ^ 64) then
        let str ← copyBytes m slen
        advance slen
        pure ⟨key, vtype, .string str slen⟩
      else Prog.fail
    | .array =>
      require m 12
      let elemType ← readNum m 4
      let count ← readNum m 8
      let data ← cursor
      Prog.repeatN count (skipMetaValue m depth (.ofCode elemType))
      pure ⟨key, vtype, .array (.ofCode elemType) count data⟩
    | _ => Prog.fail

/-! ## The header -/

/-- `GGUFTensor`; `data` is `none` where the source has `NULL`. -/
structure GGUFTensor where
  name : List UInt8
  dims : List Nat
  type : GGUFType
  offset : Nat
  data : Option Nat
  sizeBytes : Nat
deriving DecidableEq, Repr

def GGUFTensor.nDims (t : GGUFTensor) : Nat := t.dims.length

structure GGUFHeader where
  version : Nat
  nTensors : Nat
  nMeta : Nat
  metas : List GGUFMeta
  tensors : List GGUFTensor
  dataRegion : Nat
  dataRegionSize : Nat
  arch : List UInt8
  isMultimodal : Bool
deriving DecidableEq, Repr

def ggufMagic : Nat := 0x46554747
def ggufMaxTensors : Nat := 4096
def ggufMaxMetaKeys : Nat := 512

/-- `strcmp(a, s) == 0` for the NUL-terminated bytes `a` and a text `s` with no NUL. -/
def sameText (a : List UInt8) (s : String) : Bool := a.takeWhile (· ≠ 0) = ascii s

/-- The header after a metadata entry: it is kept, and `general.architecture` fills `arch`. -/
def GGUFHeader.addMeta (hdr : GGUFHeader) (e : GGUFMeta) : GGUFHeader :=
  { hdr with
    metas := hdr.metas ++ [e]
    arch :=
      match sameText e.key "general.architecture", e.val with
      | true, .string str len => str.take (if len < 63 then len else 63)
      | _, _ => hdr.arch }

def readMetas (m : Mapped) (alloc : Nat → Bool) (depth : Nat) : Nat → GGUFHeader → Reader GGUFHeader
  | 0, hdr => pure hdr
  | n + 1, hdr => do
    let e ← parseMetaEntry m alloc depth
    readMetas m alloc depth n (hdr.addMeta e)

def visionPrefixes : List String :=
  ["v.blk.", "vision_model.", "vision_tower.", "encoder.", "mm.", "vlm.", "image_encoder."]

/-- `looks_like_vision_tensor`. -/
def looksLikeVisionTensor (name : List UInt8) : Bool :=
  visionPrefixes.any fun s => (ascii s).isPrefixOf (name.takeWhile (· ≠ 0))

def readDims (m : Mapped) : Nat → Reader (List Nat)
  | 0 => pure []
  | n + 1 => do
    require m 8
    let d ← readNum m 8
    let ds ← readDims m n
    pure (d :: ds)

/-- One tensor info; a tensor of more than 4 dimensions is read as one of 4. -/
def readTensor (m : Mapped) : Reader GGUFTensor := do
  let name ← readStr m ggufMaxKeyLen
  require m 4
  let nDims ← readNum m 4
  let dims ← readDims m (if nDims > 4 then 4 else nDims)
  require m 12
  let type ← readNum m 4
  let offset ← readNum m 8
  pure ⟨name, dims, .ofCode type, offset, none, 0⟩

def readTensors (m : Mapped) : Nat → GGUFHeader → Reader GGUFHeader
  | 0, hdr => pure hdr
  | n + 1, hdr => do
    let t ← readTensor m
    readTensors m n
      { hdr with
        tensors := hdr.tensors ++ [t]
        isMultimodal := if looksLikeVisionTensor t.name then true else hdr.isMultimodal }

/-- `tensor_size_bytes`, in 64-bit arithmetic. -/
def tensorSizeBytes (t : GGUFTensor) : Nat :=
  let nElems := t.dims.foldl (fun n d => n * d % 2 ^ 64) 1
  let blockEl := ggufBlockElems t.type
  let nBlocks := (nElems + blockEl - 1) % 2 ^ 64 / blockEl
  nBlocks * ggufBlockSize t.type % 2 ^ 64

/-- The loop over the tensors at the end of `gguf_read_header`. -/
def resolveTensor (dataRegion dataRegionSize : Nat) (t : GGUFTensor) : GGUFTensor :=
  if t.offset > dataRegionSize then { t with data := none, sizeBytes := 0 }
  else { t with data := some (dataRegion + t.offset), sizeBytes := tensorSizeBytes t }

/-- `data_start`: the offset of the cursor `p`, aligned to 32 bytes from version 2 on. -/
def dataStart (m : Mapped) (version p : Nat) : Nat :=
  let headerEnd := (p + 2 ^ 64 - m.base) % 2 ^ 64
  let alignment := if version ≥ 2 then 32 else 1
  (headerEnd + alignment - 1) % 2 ^ 64 / alignment * alignment

/-- The data region behind the cursor `p`, and the tensors in it. -/
def locateTensors (m : Mapped) (p : Nat) (hdr : GGUFHeader) : Reader GGUFHeader :=
  let start := dataStart m hdr.version p
  if start > m.size then Prog.fail
  else
    let dataRegion := m.base + start
    let dataRegionSize := m.size - start
    pure { hdr with dataRegion, dataRegionSize, tensors := hdr.tensors.map (resolveTensor dataRegion dataRegionSize) }

/-- `memset(hdr, 0, sizeof(*hdr))` and the fields before the metadata. -/
def GGUFHeader.ofCounts (version nTensors nMeta : Nat) : GGUFHeader :=
  ⟨version, nTensors, nMeta, [], [], 0, 0, [], false⟩

/-- `gguf_read_header` after its first test; `fail` is `TN_ERR_INVALID_ARGS`. -/
def readHeader (m : Mapped) (alloc : Nat → Bool) (depth : Nat) : Reader GGUFHeader := do
  let magic ← readNum m 4
  if magic ≠ ggufMagic then Prog.fail
  else
    let version ← readNum m 4
    if version < 1 ∨ version > 3 then Prog.fail
    else
      let nTensors ← readNum m (if version = 1 then 4 else 8)
      let nMeta ← readNum m (if version = 1 then 4 else 8)
      if nTensors > ggufMaxTensors ∨ nMeta > ggufMaxMetaKeys then Prog.fail
      else
        let hdr ← readMetas m alloc depth nMeta (.ofCounts version nTensors nMeta)
        let hdr ← readTensors m nTensors hdr
        let p ← cursor
        locateTensors m p hdr

/-- `gguf_read_header`. -/
def ggufReadHeader (m : Mapped) (alloc : Nat → Bool) (depth : Nat) : Logged Event Cursor GGUFHeader :=
  if m.base = 0 ∨ m.size < 24 then ⟨.fail, ⟨m.base, 0⟩, []⟩ else readHeader m alloc depth ⟨m.base, 0⟩

end BitForge.Gguf
