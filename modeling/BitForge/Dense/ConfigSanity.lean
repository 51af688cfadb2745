/-
The relations between the header integers that the head arithmetic of `attention_forward` rests on, and which files the
two loaders accept with them: `config_read` for `.bin` files and `config_from_gguf` for GGUF files.
-/
import BitForge.Dense.Load
import BitForge.Gguf.Config
import BitForge.Moe.Bounds

namespace BitForge.Dense

open BitForge.Lib

/-- The integers that the head arithmetic reads. -/
structure Shape where
  dim : Int
  hiddenDim : Int
  nLayers : Int
  nHeads : Int
  nKvHeads : Int
  vocabSize : Int
  seqLen : Int
deriving DecidableEq, Repr

def Config.shape (c : Config) : Shape := ⟨c.dim, c.hiddenDim, c.nLayers, c.nHeads, c.nKvHeads, c.vocabSize, c.seqLen⟩

def ggufShape (c : Gguf.Config) : Shape := ⟨c.dim, c.hiddenDim, c.nLayers, c.nHeads, c.nKvHeads, c.vocabSize, c.seqLen⟩

/-- All integers are positive, the heads divide the dimension and the KV heads the heads. -/
structure Shape.Sane (c : Shape) : Prop where
  dim : 0 < c.dim
  hiddenDim : 0 < c.hiddenDim
  nLayers : 0 < c.nLayers
  nHeads : 0 < c.nHeads
  nKvHeads : 0 < c.nKvHeads
  vocabSize : 0 < c.vocabSize
  seqLen : 0 < c.seqLen
  heads_dvd : c.nHeads ∣ c.dim
  kvHeads_dvd : c.nKvHeads ∣ c.nHeads

/-! ## The head arithmetic -/

/-- `config_head_dim` -/
def Shape.headDim (c : Shape) : Int := c.dim.tdiv c.nHeads

/-- `config_kv_dim` -/
def Shape.kvDim (c : Shape) : Int := c.dim.tdiv c.nHeads * c.nKvHeads

/-- `kv_mul = n_heads / n_kv_heads` -/
def Shape.kvMul (c : Shape) : Int := c.nHeads.tdiv c.nKvHeads

/-- No division by zero, and every head of the loops of `attention_forward` is one of its buffer. -/
structure Shape.HeadsDefined (c : Shape) : Prop where
  nHeads_ne : c.nHeads ≠ 0
  nKvHeads_ne : c.nKvHeads ≠ 0
  kvMul_ne : c.kvMul ≠ 0
  headDim_pos : 0 < c.headDim
  headDim_mul : c.headDim * c.nHeads = c.dim
  kvDim : 0 < c.kvDim ∧ c.kvDim ≤ c.dim
  queryHead : ∀ h, 0 ≤ h → h < c.nHeads → 0 ≤ h * c.headDim ∧ h * c.headDim + c.headDim ≤ c.dim
  kvHead : ∀ h, 0 ≤ h → h < c.nHeads → 0 ≤ h.tdiv c.kvMul ∧ h.tdiv c.kvMul < c.nKvHeads

theorem Shape.Sane.headsDefined {c : Shape} (h : c.Sane) : c.HeadsDefined := by
  obtain ⟨m, hm⟩ := h.heads_dvd
  obtain ⟨k, hk⟩ := h.kvHeads_dvd
  have hheads := h.nHeads
  have hkv := h.nKvHeads
  have hm0 : 0 < m := pos_of_mul_pos_right (hm ▸ h.dim) hheads.le
  have hk0 : 0 < k := pos_of_mul_pos_right (hk ▸ h.nHeads) hkv.le
  have hheadDim : c.headDim = m := by
    unfold Shape.headDim
    rw [hm, Int.mul_tdiv_cancel_left _ hheads.ne']
  have hkvMul : c.kvMul = k := by
    unfold Shape.kvMul
    rw [hk, Int.mul_tdiv_cancel_left _ hkv.ne']
  have hkvDim : c.kvDim = m * c.nKvHeads := by
    rw [← hheadDim]
    rfl
  have hle : c.nKvHeads ≤ c.nHeads := Int.le_of_dvd hheads h.kvHeads_dvd
  refine ⟨hheads.ne', hkv.ne', by omega, by omega, by rw [hheadDim, hm, Int.mul_comm], ?_, fun q h0 hlt => ?_, fun q h0 hlt => ?_⟩
  · rw [hkvDim, hm, Int.mul_comm c.nHeads]
    exact ⟨Int.mul_pos hm0 hkv, Int.mul_le_mul_of_nonneg_left hle hm0.le⟩
  · have hstep : (q + 1) * m ≤ c.nHeads * m := Int.mul_le_mul_of_nonneg_right (by omega) hm0.le
    have hzero : 0 ≤ q * m := Int.mul_nonneg h0 hm0.le
    rw [hheadDim, hm]
    constructor
    · exact hzero
    · linarith [add_mul q 1 m]
  · rw [hkvMul, Int.tdiv_eq_ediv_of_nonneg h0]
    refine ⟨Int.ediv_nonneg h0 hk0.le, Int.ediv_lt_of_lt_mul hk0 ?_⟩
    rwa [hk] at hlt

/-! ## `config_read` with its divisions -/

/-- A division by zero, an error code, or a configuration. -/
inductive ReadOutcome
  | fault
  | error (e : TernaryError)
  | ok (cfg : Config)
deriving DecidableEq, Repr

/-- `config_read`, where `a % b` faults for a zero divisor. -/
def configReadOutcome (file : List UInt8) (fileSize : Nat) : ReadOutcome :=
  if ¬ fileSize ≥ 8 + sizeofConfig then .error .invalidConfig
  else if ¬ rd32 file 0 = 0x594E5254 then .error .invalidMagic
  else if ¬ rd32 file 4 = 1 then .error .versionMismatch
  else
    let cfg := readFields file 8
    if ¬ (cfg.dim > 0 ∧ cfg.nLayers > 0) then .error .invalidConfig
    else if cfg.nHeads = 0 then .fault
    else if ¬ cfg.dim.tmod cfg.nHeads = 0 then .error .invalidConfig
    else if cfg.nKvHeads = 0 then .fault
    else if ¬ cfg.nHeads.tmod cfg.nKvHeads = 0 then .error .invalidConfig
    else .ok cfg

/-- What it accepts is what `configRead` accepts. -/
theorem configRead_eq_ok {file : List UInt8} {fileSize : Nat} {cfg : Config} :
    configRead file fileSize = .ok cfg ↔ configReadOutcome file fileSize = .ok cfg := by
  unfold configRead configReadOutcome
  have hthrow : ∀ (e : TernaryError) (f : PUnit → Except TernaryError Config), (throw e >>= f) = .error e := fun _ _ => rfl
  simp only [hthrow]
  split
  · exact iff_of_false (fun h => by cases h) (fun h => by cases h)
  split
  · exact iff_of_false (fun h => by cases h) (fun h => by cases h)
  split
  · exact iff_of_false (fun h => by cases h) (fun h => by cases h)
  split
  · exact iff_of_false (fun h => by cases h) (fun h => by cases h)
  generalize readFields file 8 = c
  by_cases hheads : c.nHeads = 0
  · simp [hheads]
  by_cases hdiv : c.dim.tmod c.nHeads = 0
  swap
  · simp [hheads, hdiv]
  by_cases hkv : c.nKvHeads = 0
  · simp [hheads, hdiv, hkv]
  by_cases hkvdiv : c.nHeads.tmod c.nKvHeads = 0
  · simp [hheads, hdiv, hkv, hkvdiv, pure, Except.pure]
  · simp [hheads, hdiv, hkv, hkvdiv]

/-- The checks that come before the divisions. -/
def HeaderPasses (file : List UInt8) (fileSize : Nat) : Prop :=
  fileSize ≥ 8 + sizeofConfig ∧ rd32 file 0 = 0x594E5254 ∧ rd32 file 4 = 1 ∧
    (readFields file 8).dim > 0 ∧ (readFields file 8).nLayers > 0

/-- Where a check is reached the integers of the file are those of a sane shape. -/
def BinSane (file : List UInt8) (fileSize : Nat) : Prop :=
  HeaderPasses file fileSize →
    (readFields file 8).nHeads ≠ 0 ∧
      ((readFields file 8).nHeads ∣ (readFields file 8).dim →
        (readFields file 8).nKvHeads ≠ 0 ∧
          ((readFields file 8).nKvHeads ∣ (readFields file 8).nHeads →
            0 < (readFields file 8).hiddenDim ∧ 0 < (readFields file 8).nHeads ∧ 0 < (readFields file 8).nKvHeads ∧
              0 < (readFields file 8).vocabSize ∧ 0 < (readFields file 8).seqLen))

theorem refused_sane {e : TernaryError} :
    ReadOutcome.error e ≠ .fault ∧ ∀ cfg, ReadOutcome.error e = .ok cfg → cfg.shape.Sane :=
  ⟨fun h => (by cases h), fun _ h => (by cases h)⟩

theorem fault_not_sane :
    ¬ (ReadOutcome.fault ≠ .fault ∧ ∀ cfg, ReadOutcome.fault = .ok cfg → cfg.shape.Sane) := fun h => h.1 rfl

theorem configReadOutcome_sane_iff (file : List UInt8) (fileSize : Nat) :
    (configReadOutcome file fileSize ≠ .fault ∧ ∀ cfg, configReadOutcome file fileSize = .ok cfg → cfg.shape.Sane) ↔
      BinSane file fileSize := by
  unfold configReadOutcome BinSane
  by_cases hsize : fileSize ≥ 8 + sizeofConfig
  swap
  · rw [if_pos hsize]
    exact iff_of_true refused_sane fun hp => absurd hp.1 hsize
  rw [if_neg (not_not.2 hsize)]
  by_cases hmagic : rd32 file 0 = 0x594E5254
  swap
  · rw [if_pos hmagic]
    exact iff_of_true refused_sane fun hp => absurd hp.2.1 hmagic
  rw [if_neg (not_not.2 hmagic)]
  by_cases hversion : rd32 file 4 = 1
  swap
  · rw [if_pos hversion]
    exact iff_of_true refused_sane fun hp => absurd hp.2.2.1 hversion
  rw [if_neg (not_not.2 hversion)]
  have hpasses : HeaderPasses file fileSize ↔ (readFields file 8).dim > 0 ∧ (readFields file 8).nLayers > 0 :=
    ⟨fun hp => hp.2.2.2, fun hp => ⟨hsize, hmagic, hversion, hp⟩⟩
  rw [hpasses]
  clear hpasses hsize hmagic hversion
  generalize readFields file 8 = c
  dsimp only
  split
  · next h => exact iff_of_true refused_sane fun hp => absurd hp h
  next hpos =>
  rw [not_not] at hpos
  split
  · next h => exact iff_of_false fault_not_sane fun hs => (hs hpos).1 h
  next hheads =>
  split
  · next h => exact iff_of_true refused_sane fun _ => ⟨hheads, fun hd => absurd (Int.tmod_eq_zero_of_dvd hd) h⟩
  next hdvd =>
  rw [not_not, ← Int.dvd_iff_tmod_eq_zero] at hdvd
  split
  · next h => exact iff_of_false fault_not_sane fun hs => ((hs hpos).2 hdvd).1 h
  next hkv =>
  split
  · next h => exact iff_of_true refused_sane fun _ => ⟨hheads, fun _ => ⟨hkv, fun hd => absurd (Int.tmod_eq_zero_of_dvd hd) h⟩⟩
  next hkvdvd =>
  rw [not_not, ← Int.dvd_iff_tmod_eq_zero] at hkvdvd
  constructor
  · rintro ⟨-, hsane⟩ -
    have h := hsane c rfl
    exact ⟨hheads, fun _ => ⟨hkv, fun _ => ⟨h.hiddenDim, h.nHeads, h.nKvHeads, h.vocabSize, h.seqLen⟩⟩⟩
  · intro hs
    obtain ⟨-, hs⟩ := hs hpos
    obtain ⟨-, hs⟩ := hs hdvd
    obtain ⟨hhidden, hheads0, hkv0, hvocab, hseq⟩ := hs hkvdvd
    refine ⟨nofun, ?_⟩
    rintro cfg ⟨⟩
    exact ⟨hpos.1, hhidden, hpos.2, hheads0, hkv0, hvocab, hseq, hdvd, hkvdvd⟩

/-! ## The GGUF loader -/

/-- The metadata has the relations that the loader does not check. -/
def GgufSane (hdr : Gguf.GGUFHeader) : Prop :=
  Gguf.Required hdr → 0 < Gguf.ggufKvHeads hdr ∧ 0 < Gguf.ggufSeqLen hdr ∧
    Gguf.archInt hdr "attention.head_count" 0 ∣ Gguf.archInt hdr "embedding_length" 0 ∧
      Gguf.ggufKvHeads hdr ∣ Gguf.archInt hdr "attention.head_count" 0

/-- `config_from_gguf` divides no integers. -/
theorem configFromGguf_sane_iff (hdr : Gguf.GGUFHeader) :
    (∀ cfg, Gguf.configFromGguf hdr = some cfg → (ggufShape cfg).Sane) ↔ GgufSane hdr := by
  constructor
  · intro h hreq
    obtain ⟨cfg, hcfg⟩ := (Gguf.configFromGguf_isSome_iff hdr).2 hreq
    have hsane := h cfg hcfg
    obtain ⟨-, hdim, hheads, -, hkv, hseq, -⟩ := Gguf.configFromGguf_some hcfg
    rw [← hdim, ← hheads, ← hkv, ← hseq]
    exact ⟨hsane.nKvHeads, hsane.seqLen, hsane.heads_dvd, hsane.kvHeads_dvd⟩
  · intro h cfg hcfg
    obtain ⟨⟨hdim0, hlayers0, hheads0, hhidden0, hvocab0⟩, hdim, hheads, -, hkv, hseq, -⟩ := Gguf.configFromGguf_some hcfg
    obtain ⟨hkv0, hseq0, hdvd, hkvdvd⟩ := h ((Gguf.configFromGguf_isSome_iff hdr).1 ⟨cfg, hcfg⟩)
    rw [← hkv] at hkv0 hkvdvd
    rw [← hheads] at hdvd hkvdvd
    rw [← hdim] at hdvd
    rw [← hseq] at hseq0
    exact ⟨hdim0, hhidden0, hlayers0, hheads0, hkv0, hvocab0, hseq0, hdvd, hkvdvd⟩

/-! ## Files -/

/-- A file of one of the two formats. -/
inductive ConfigFile
  | bin (file : List UInt8)
  | gguf (m : Gguf.Mapped) (alloc : Nat → Bool)

/-- The loader of the file divides by zero. -/
def ConfigFile.Faults : ConfigFile → Prop
  | .bin file => configReadOutcome file file.length = .fault
  | .gguf .. => False

/-- The loader of the file ends with `TN_OK` and these integers. -/
def ConfigFile.Loads (c : Shape) : ConfigFile → Prop
  | .bin file => ∃ cfg, configReadOutcome file file.length = .ok cfg ∧ cfg.shape = c
  | .gguf m alloc => ∃ hdr, Moe.readsHeader m alloc hdr ∧ ∃ cfg, Gguf.configFromGguf hdr = some cfg ∧ ggufShape cfg = c

/-- The integers that the file states are in the relations that its loader leaves unchecked. -/
def ConfigFile.Sane : ConfigFile → Prop
  | .bin file => BinSane file file.length
  | .gguf m alloc => ∀ hdr, Moe.readsHeader m alloc hdr → GgufSane hdr

/-- A loader does not fault, and what it accepts has the relations and with them its head arithmetic, exactly if the file
has them. -/
theorem config_sane_iff (file : ConfigFile) :
    (¬ file.Faults ∧ ∀ c, file.Loads c → c.Sane ∧ c.HeadsDefined) ↔ file.Sane := by
  have hboth : ∀ c : Shape, c.Sane ∧ c.HeadsDefined ↔ c.Sane := fun c => and_iff_left_of_imp Shape.Sane.headsDefined
  simp only [hboth]
  cases file with
  | bin file =>
    refine Iff.trans ?_ (configReadOutcome_sane_iff file file.length)
    refine and_congr_right fun _ => ⟨fun h cfg hcfg => h _ ⟨cfg, hcfg, rfl⟩, ?_⟩
    rintro h c ⟨cfg, hcfg, rfl⟩
    exact h cfg hcfg
  | gguf m alloc =>
    constructor
    · rintro ⟨-, h⟩ hdr hread
      exact (configFromGguf_sane_iff hdr).1 fun cfg hcfg => h _ ⟨hdr, hread, cfg, hcfg, rfl⟩
    · intro h
      refine ⟨not_false, ?_⟩
      rintro c ⟨hdr, hread, cfg, hcfg, rfl⟩
      exact (configFromGguf_sane_iff hdr).2 (h hdr hread) cfg hcfg

/-- A header with no heads: `dim` and `n_layers` are 1, all else is 0. -/
def noHeadsFile : List UInt8 :=
  le32 0x594E5254 ++ le32 1 ++ le32 1 ++ le32 0 ++ le32 1 ++ List.replicate 68 0

theorem no_heads_fault : ¬ ∀ file : ConfigFile, ¬ file.Faults ∧ ∀ c, file.Loads c → c.Sane ∧ c.HeadsDefined := by
  intro h
  have hfault : configReadOutcome noHeadsFile noHeadsFile.length = .fault := by decide +kernel
  exact (h (.bin noHeadsFile)).1 hfault

end BitForge.Dense
