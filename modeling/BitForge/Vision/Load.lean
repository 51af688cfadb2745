/-
The reader of `vision.bin` and `projector.bin`, `vision_model_load_encoder` and
`vision_model_load_projector`, over the bytes of the mapped file. Byte counts are computed in `size_t`
and wrap; an overflow of `int`, which C leaves undefined, counts as refused.
-/
import BitForge.Vision.Export

namespace BitForge.Vision

open BitForge.Lib

/-- `VisionConfig`. -/
structure VisionConfig where
  nLayers : Int
  embedDim : Int
  hiddenDim : Int
  nHeads : Int
  patchDim : Int
  numPatches : Int
deriving DecidableEq, Repr

/-- The integers of `VisionProjector`, and whether the file has biases. -/
structure ProjConfig where
  visionDim : Int
  llmDim : Int
  hiddenDim : Int
  hasBias : Bool
  scaleFactor : Int
deriving DecidableEq, Repr

/-- A pointer into the file, with the number of floats that the loader has reserved for it. -/
structure Mapped (F : Type) where
  field : F
  offset : Nat
  count : Nat
deriving DecidableEq, Repr

def rd32s (file : List UInt8) (off : Nat) : Int := toInt32 (rd32 file off)

/-- The conversion of an `int` to `size_t`. -/
def sizeT (z : Int) : Nat := (z % 2 ^ 64).toNat

/-- A product in `size_t`. -/
def mulSize (a b : Nat) : Nat := a * b % 2 ^ 64

/-- A product of `int`s; `none` when it overflows. -/
def mulInt (a b : Int) : Option Int := if -2 ^ 31 ≤ a * b ∧ a * b < 2 ^ 31 then some (a * b) else none

/-- `ADVANCE`, `LAYER_PTR` and `PROJ_PTR`. -/
def advance {F : Type} (size : Nat) (off : Nat) (step : F × Nat) : Option (Mapped F × Nat) :=
  let nbytes := mulSize step.2 4
  let next := (off + nbytes) % 2 ^ 64
  if next > size then none else some (⟨step.1, off, step.2⟩, next)

/-! ## The encoder -/

def readVisionHeader (file : List UInt8) : VisionConfig :=
  { nLayers := rd32s file 8
    embedDim := rd32s file 12
    hiddenDim := rd32s file 16
    nHeads := rd32s file 20
    patchDim := rd32s file 24
    numPatches := rd32s file 28 }

/-- The header is not refused; its `hidden_dim` is not checked. -/
def visionHeaderOk (c : VisionConfig) : Bool :=
  !(c.nLayers < 1 || c.nLayers > 128 || c.embedDim < 1 || c.embedDim > 8192 || c.nHeads < 1 || c.nHeads > 64 ||
    c.patchDim < 1 || c.numPatches < 1)

/-- The pointers of a layer, with their lengths. -/
def layerSteps (c : VisionConfig) (l : Nat) : List (Field × Nat) :=
  let d := sizeT c.embedDim
  let h := sizeT c.hiddenDim
  [(.rmsAtt l, d), (.rmsFfn l, d), (.wq l, mulSize d d), (.wk l, mulSize d d), (.wv l, mulSize d d), (.wo l, mulSize d d),
    (.w1 l, mulSize h d), (.w2 l, mulSize d h), (.w3 l, mulSize h d)]

def visionSteps (c : VisionConfig) : List (Field × Nat) :=
  let d := sizeT c.embedDim
  [(.patchProjW, mulSize d (sizeT c.patchDim)), (.patchProjB, d), (.posEmbed, mulSize (sizeT c.numPatches) d),
    (.rmsFinal, d)] ++ (List.range c.nLayers.toNat).flatMap (layerSteps c)

/-- `vision_model_load_encoder` on an opened file. -/
def visionModelLoadEncoder (file : List UInt8) : Option (VisionConfig × List (Mapped Field)) :=
  if file.length < 64 then none
  else if rd32 file 0 ≠ 0x57535956 then none
  else
    let c := readVisionHeader file
    if visionHeaderOk c then (readItems (advance file.length) 64 (visionSteps c)).map fun r => (c, r.1) else none

/-! ## The projector -/

def readProjHeader (file : List UInt8) : ProjConfig :=
  let scaleFactor := rd32s file 24
  { visionDim := rd32s file 8
    llmDim := rd32s file 12
    hiddenDim := rd32s file 16
    hasBias := rd32s file 20 != 0
    scaleFactor := if scaleFactor ≤ 0 then 1 else scaleFactor }

def projHeaderOk (c : ProjConfig) : Bool := !(c.visionDim < 1 || c.llmDim < 1 || c.hiddenDim < 0)

/-- The pointers of the projector, with their lengths: one linear layer without hidden dimension, and
two layers otherwise. -/
def projSteps (c : ProjConfig) : Option (List (ProjField × Nat)) :=
  if c.hiddenDim = 0 then do
    let s2 ← mulInt c.scaleFactor c.scaleFactor
    let shuffleDim ← mulInt c.visionDim s2
    return (.wUp, mulSize (sizeT c.llmDim) (sizeT shuffleDim)) :: if c.hasBias then [(.biasUp, sizeT c.llmDim)] else []
  else
    some (((.wDown, mulSize (sizeT c.hiddenDim) (sizeT c.visionDim)) ::
        if c.hasBias then [(.biasDown, sizeT c.hiddenDim)] else []) ++
      (.wUp, mulSize (sizeT c.llmDim) (sizeT c.hiddenDim)) :: if c.hasBias then [(.biasUp, sizeT c.llmDim)] else [])

/-- `vision_model_load_projector` on an opened file. -/
def visionModelLoadProjector (file : List UInt8) : Option (ProjConfig × List (Mapped ProjField)) :=
  if file.length < 64 then none
  else if rd32 file 0 ≠ 0x4A4F5250 then none
  else
    let c := readProjHeader file
    if projHeaderOk c then do
      let steps ← projSteps c
      let (ms, _) ← readItems (advance file.length) 64 steps
      return (c, ms)
    else none

/-! ## Files as they are written -/

section

variable {F : Type} (f : OutFile F)

/-- The offset of each array in the file. -/
def OutFile.places : List (Mapped F) :=
  itemsAt (fun p : F × List UInt32 => words p.2) (fun q p => ⟨p.1, q, p.2.length⟩) 64 f.written

/-- The lengths of the arrays. -/
def OutFile.lengths : List (F × Nat) := f.written.map fun p => (p.1, p.2.length)

theorem length_words (d : List UInt32) : (words d).length = d.length * 4 := by
  unfold words
  simp [List.length_flatMap]

/-- The steps of a run are what it has mapped. -/
theorem readItems_advance_steps {size : Nat} : ∀ {steps : List (F × Nat)} {p q : Nat} {ms : List (Mapped F)},
    readItems (advance size) p steps = some (ms, q) → ms.map (fun m => (m.field, m.count)) = steps
  | [], _, _, _, h => by cases h; rfl
  | step :: steps, p, q, ms, h => by
    rw [readItems] at h
    simp only [Option.bind_eq_bind, Option.bind_eq_some_iff] at h
    obtain ⟨⟨m, p1⟩, hm, ⟨ms1, p2⟩, hms, hret⟩ := h
    cases hret
    have hstep : (m.field, m.count) = step := by
      unfold advance at hm
      dsimp only at hm
      split_ifs at hm
      cases hm
      rfl
    rw [List.map_cons, readItems_advance_steps hms, hstep]

/-- The header takes 64 bytes. -/
theorem length_header (hdr : f.header.length = 8) :
    (f.header.flatMap le32 ++ List.replicate (64 - (f.header.flatMap le32).length) (0 : UInt8)).length = 64 := by
  have h32 : (f.header.flatMap le32).length = 32 := by
    rw [List.length_flatMap]
    simp [hdr]
  rw [List.length_append, List.length_replicate, h32]

theorem length_bytes (hdr : f.header.length = 8) :
    f.bytes.length = 64 + (f.written.flatMap fun p => words p.2).length := by
  unfold OutFile.bytes
  rw [List.length_append, length_header f hdr]

/-- The loader maps the arrays where they were written exactly when it reserves their lengths. -/
theorem readItems_places (hdr : f.header.length = 8) (hsize : f.bytes.length < 2 ^ 63) (steps : List (F × Nat)) :
    (∃ q, readItems (advance f.bytes.length) 64 steps = some (f.places, q)) ↔ steps = f.lengths := by
  constructor
  · rintro ⟨q, h⟩
    rw [← readItems_advance_steps h]
    unfold OutFile.places OutFile.lengths
    rw [itemsAt_map]
    generalize 64 = p
    induction f.written generalizing p with
    | nil => rfl
    | cons x xs ih => rw [itemsAt, List.map_cons, ih]
  · rintro rfl
    have hlen := length_bytes f hdr
    have hall : ∀ (xs : List (F × List UInt32)) (p : Nat), p + (xs.flatMap fun p => words p.2).length = f.bytes.length →
        readItems (advance f.bytes.length) p (xs.map fun p => (p.1, p.2.length)) =
          some (itemsAt (fun p : F × List UInt32 => words p.2) (fun q p => ⟨p.1, q, p.2.length⟩) p xs, f.bytes.length) := by
      intro xs
      induction xs with
      | nil =>
        intro p hp
        simp only [List.flatMap_nil, List.length_nil, Nat.add_zero] at hp
        rw [hp]
        rfl
      | cons x xs ih =>
        intro p hp
        rw [List.flatMap_cons, List.length_append] at hp
        have hbytes := length_words x.2
        have hadv : advance f.bytes.length p (x.1, x.2.length) = some (⟨x.1, p, x.2.length⟩, p + (words x.2).length) := by
          unfold advance mulSize
          dsimp only
          rw [Nat.mod_eq_of_lt (show x.2.length * 4 < 2 ^ 64 by omega),
            Nat.mod_eq_of_lt (show p + x.2.length * 4 < 2 ^ 64 by omega), if_neg (by omega), hbytes]
        have ih := ih (p + (words x.2).length) (by omega)
        rw [List.map_cons, readItems, hadv]
        simp only [Option.bind_eq_bind, Option.bind_some, ih, itemsAt]
    exact ⟨_, hall f.written 64 hlen.symm⟩

/-- The words of the header. -/
theorem rd32_bytes {i : Nat} (hi : i < f.header.length) : rd32 f.bytes (4 * i) = f.header.getD i 0 % 2 ^ 32 := by
  unfold OutFile.bytes
  rw [List.append_assoc, rd32_words _ _ hi]

/-- The words of an array at its place. -/
theorem rd32_places (hdr : f.header.length = 8) {m : Mapped F} (hm : m ∈ f.places) :
    ∃ d, (m.field, d) ∈ f.written ∧ m.count = d.length ∧
      ∀ i < d.length, rd32 f.bytes (m.offset + 4 * i) = (d.getD i 0).toNat := by
  obtain ⟨as, ⟨x, d⟩, bs, hw, rfl⟩ := mem_itemsAt _ _ hm
  refine ⟨d, by rw [hw]; simp, rfl, fun i hi => ?_⟩
  have hpre : f.bytes = (f.header.flatMap le32 ++ List.replicate (64 - (f.header.flatMap le32).length) 0 ++
      as.flatMap fun p => words p.2) ++ (words d ++ bs.flatMap fun p => words p.2) := by
    unfold OutFile.bytes
    rw [hw]
    simp
  have hlen : (f.header.flatMap le32 ++ List.replicate (64 - (f.header.flatMap le32).length) (0 : UInt8) ++
      as.flatMap fun p => words p.2).length = 64 + (as.flatMap fun p => words p.2).length := by
    rw [List.length_append, length_header f hdr]
  have hwords : words d = (d.map UInt32.toNat).flatMap le32 := by
    unfold words
    rw [List.flatMap_map]
  show rd32 f.bytes (64 + (as.flatMap fun p => words p.2).length + 4 * i) = _
  rw [hpre, ← hlen, rd32_append_right, hwords, rd32_words _ _ (by simpa using hi)]
  have hget : (d.map UInt32.toNat).getD i 0 = (d.getD i 0).toNat := by
    rw [List.getD_eq_getElem?_getD, List.getD_eq_getElem?_getD, List.getElem?_map]
    cases d[i]? <;> rfl
  rw [hget, Nat.mod_eq_of_lt (UInt32.toNat_lt _)]

end

end BitForge.Vision
