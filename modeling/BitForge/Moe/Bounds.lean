/-
The bounds of the expert counts over whole model files: which files load into a configuration whose layers stay inside
the router's buffers.
-/
import BitForge.Gguf.Safety
import BitForge.Moe.Routing

namespace BitForge.Moe

open BitForge.Lib BitForge.Gguf

/-- A file with its configuration: a `.bin` file with the MoE header at an offset, or a GGUF file. -/
inductive ModelFile
  | bin (data : List UInt8) (offset : Nat)
  | gguf (m : Mapped) (alloc : Nat → Bool)

/-- The header of a GGUF file; no value nests deeper than the file is long. -/
def readsHeader (m : Mapped) (alloc : Nat → Bool) (hdr : GGUFHeader) : Prop :=
  (ggufReadHeader m alloc m.size).outcome = .ok hdr

/-- The loader of the file ends with `TN_OK` and this configuration. -/
def ModelFile.Loads (mc : MoEConfig) : ModelFile → Prop
  | .bin data offset => moeConfigRead data offset = some mc
  | .gguf m alloc => ∃ hdr, readsHeader m alloc hdr ∧ moeConfigFromGguf hdr = some mc

/-- A configuration is in bounds, and with it every access of every layer on every scores. -/
structure MoEConfig.Bounded (mc : MoEConfig) : Prop where
  inBounds : mc.InBounds
  safe : ∀ path scores, SafeLog mc.numExperts (moeFfnForward mc path scores)

theorem MoEConfig.InBounds.bounded {mc : MoEConfig} (h : mc.InBounds) : mc.Bounded where
  inBounds := h
  safe path scores := by
    obtain ⟨⟨h0, hn⟩, hk0, hk⟩ := h
    exact moeFfnForward_safe (by omega) hn (by omega) path scores

theorem MoEConfig.bounded_iff {mc : MoEConfig} : mc.Bounded ↔ mc.InBounds := ⟨fun h => h.inBounds, fun h => h.bounded⟩

/-- The counts that the file states are in bounds; a `.bin` file with other counts is refused. -/
def ModelFile.CountsInBounds : ModelFile → Prop
  | .bin .. => True
  | .gguf m alloc => ∀ hdr, readsHeader m alloc hdr → Moe.CountsInBounds hdr

/-- What a file loads into is bounded exactly if its metadata states counts in bounds. -/
theorem loads_bounded_iff (file : ModelFile) :
    (∀ mc, file.Loads mc → mc.isMoe = true → mc.Bounded) ↔ file.CountsInBounds := by
  simp only [MoEConfig.bounded_iff]
  cases file with
  | bin data offset => exact iff_of_true (fun mc h _ => moeConfigRead_inBounds h) trivial
  | gguf m alloc =>
    constructor
    · intro h hdr hread
      refine (moeConfigFromGguf_inBounds_iff hdr).1 fun mc hmc hmoe => ?_
      exact h mc ⟨hdr, hread, hmc⟩ hmoe
    · rintro h mc ⟨hdr, hread, hmc⟩ hmoe
      exact (moeConfigFromGguf_inBounds_iff hdr).2 (h hdr hread) mc hmc hmoe

/-- A metadata entry of the file: its key, its type and its value. -/
def metaBytes (key : String) (type : UInt8) (value : List UInt8) : List UInt8 :=
  [UInt8.ofNat key.length, 0, 0, 0, 0, 0, 0, 0] ++ ascii key ++ [type, 0, 0, 0] ++ value

/-- A GGUF file of `deepseek2` with no tensor and 1024 experts. -/
def manyExpertsFile : List UInt8 :=
  ascii "GGUF" ++ [3, 0, 0, 0] ++ List.replicate 8 0 ++ [2, 0, 0, 0, 0, 0, 0, 0] ++
    metaBytes "general.architecture" 8 ([9, 0, 0, 0, 0, 0, 0, 0] ++ ascii "deepseek2") ++
    metaBytes "deepseek2.expert_count" 4 [0, 4, 0, 0] ++ List.replicate 17 0

theorem manyExpertsFile_length : manyExpertsFile.length ≤ 4096 := by decide +kernel

def manyExpertsHeader : GGUFHeader :=
  { GGUFHeader.ofCounts 3 0 2 with
    metas := [⟨ascii "general.architecture", .string, .string (ascii "deepseek2") 9⟩,
      ⟨ascii "deepseek2.expert_count", .uint32, .scalar 1024⟩]
    dataRegion := 4096 + 128
    dataRegionSize := 0
    arch := ascii "deepseek2" }

theorem manyExperts_reads :
    readsHeader (mapFile manyExpertsFile manyExpertsFile_length) (fun _ => true) manyExpertsHeader := by
  unfold readsHeader
  decide +kernel

/-- A file that loads although it states more experts than the router has room for. -/
theorem experts_unchecked : ¬ ∀ (file : ModelFile) (mc : MoEConfig), file.Loads mc → mc.isMoe = true → mc.Bounded := by
  intro h
  have hbounded := h (.gguf (mapFile manyExpertsFile manyExpertsFile_length) fun _ => true)
    (deepseek2Config manyExpertsHeader) ⟨manyExpertsHeader, manyExperts_reads, by decide +kernel⟩ rfl
  exact absurd hbounded.inBounds (by decide +kernel)

end BitForge.Moe
