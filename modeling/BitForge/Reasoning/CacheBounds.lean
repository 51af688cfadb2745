/-
The positions that the two generation loops reach, against the cache that `main.c` allocates for them.
-/
import BitForge.Kv.Bounds
import BitForge.Reasoning.Generate

namespace BitForge.Reasoning

open BitForge.Lib BitForge.Kv BitForge.Transformer

section

variable {F X L C R : Type} (K : Kernels F X L C R) (mc : Option MoEConfig) (tok : Transformer.Tokenizer) (smp : Sampling L)

/-- The generic caches are allocated for models without caches of their own. -/
def HasGenericCache (model : Option MoEConfig) : Prop := ∀ m ∈ model, m.hasLinearAttn = false ∧ m.hasQkNorm = false

/-- A forward pass at `pos` that is given the configuration `mc` stays in the caches allocated for the model: in their slots, and
in the regions of the heads of every layer, where the layers before it have advanced the window. -/
structure PassInCache (cfg : Config) (model mc : Option MoEConfig) (s : RunState F X L C R) (pos : Int) : Prop where
  slots : InCache s.maxSeqLen s.kv.sw pos
  allocated : ∀ layer, attnFamily mc layer = some .generic → HasGenericCache model
  heads : ∀ sw, SameSizes s.kv.sw sw → ∀ layer fam, attnFamily mc layer = some fam →
    AccessesInHead (kvGeometry cfg mc s.maxSeqLen fam) fam layer sw pos

omit K mc tok smp in
theorem passInCache {cfg : Config} {model mc : Option MoEConfig} {s : RunState F X L C R} {pos : Int} (hfits : CacheFits cfg mc)
    (hgeneric : ∀ layer, attnFamily mc layer = some .generic → HasGenericCache model) (h : InCache s.maxSeqLen s.kv.sw pos) :
    PassInCache cfg model mc s pos where
  slots := h
  allocated := hgeneric
  heads _ hsw layer _ hfam := (h.congr hsw).accessesInHead (hfits.fits hfam _) layer

/-- A model whose own configuration selects the generic attention has the generic caches. -/
theorem hasGenericCache_of_family {mc : Option MoEConfig} {layer : Nat} (h : attnFamily mc layer = some .generic) :
    HasGenericCache mc := by
  rintro m rfl
  unfold attnFamily at h
  dsimp only at h
  split_ifs at h with hmla hlin hfull hqk
  · cases h
  · cases h
  · cases h
  · exact ⟨Bool.eq_false_iff.2 hlin, Bool.eq_false_iff.2 hqk⟩

/-- The prompt of `generate_with_callback` leaves room in the window, or no position behind the cache is reached. -/
def CallbackFits (cfg : Config) (tok : Transformer.Tokenizer) (prompt : List UInt8) (maxTokens : Int) (maxSeqLen posOffset : Int) : Prop :=
  ∀ promptTokens, encodePrompt cfg tok prompt = some promptTokens →
    promptTokens.length + posOffset < maxSeqLen ∨ cfg.seqLen ≤ maxSeqLen ∨
      promptTokens.length + maxTokens + posOffset ≤ maxSeqLen

/-- The same for `generate_with_reasoning`, which has no bound by the context length. -/
def ReasoningFits (tok : Transformer.Tokenizer) (prompt : List UInt8) (maxTokens : Int) (maxSeqLen : Int) : Prop :=
  ∀ promptTokens, tok.encode (injectReasoningPrompt prompt 4096) 512 = some promptTokens →
    promptTokens.length < maxSeqLen ∨ maxTokens ≤ maxSeqLen

theorem callbackStates_inCache (cfg : Config) (callback : Nat → List UInt8 → Bool) (prompt : List UInt8) (maxTokens : Int)
    (s : RunState F X L C R) (hoff : 0 ≤ s.currentPos)
    (hfits : CallbackFits cfg tok prompt maxTokens s.maxSeqLen s.currentPos) :
    ∀ g ∈ callbackStates K cfg mc tok smp callback prompt maxTokens s,
      g.s.maxSeqLen = s.maxSeqLen ∧ InCache s.maxSeqLen g.s.kv.sw (g.step + s.currentPos) := by
  intro g hg
  unfold callbackStates at hg
  cases hprompt : encodePrompt cfg tok prompt with
  | none =>
    rw [hprompt] at hg
    exact absurd hg List.not_mem_nil
  | some promptTokens =>
    rw [hprompt] at hg
    obtain ⟨hframe, -, hlt⟩ := generateStates_frame K cfg mc tok smp callback promptTokens s.currentPos _ _ g hg
    dsimp only at hlt hframe
    refine ⟨hframe.maxSeqLen, InCache.congr hframe.sizes ?_⟩
    refine (inCache_iff (by omega) (by omega)).2 ?_
    rcases hfits promptTokens hprompt with h | h | h
    · exact .inl h
    · exact .inr (by omega)
    · exact .inr (by omega)

theorem reasoningReached_inCache (cfg : Config) (greedy : Bool) (prompt : List UInt8) (maxTokens : Int)
    (s : RunState F X L C R) (hfits : ReasoningFits tok prompt maxTokens s.maxSeqLen) :
    ∀ g ∈ reasoningReached K cfg tok greedy smp prompt maxTokens s,
      g.s.maxSeqLen = s.maxSeqLen ∧ InCache s.maxSeqLen g.s.kv.sw g.pos := by
  intro g hg
  unfold reasoningReached at hg
  cases hprompt : tok.encode (injectReasoningPrompt prompt 4096) 512 with
  | none =>
    rw [hprompt] at hg
    exact absurd hg List.not_mem_nil
  | some promptTokens =>
    rw [hprompt] at hg
    dsimp only at hg
    split_ifs at hg with hnone
    · exact absurd hg List.not_mem_nil
    · obtain ⟨hframe, hpos, hlt⟩ := reasoningStates_frame K cfg tok greedy smp promptTokens _ _ rfl g hg
      have hstep : (reasoningInit promptTokens s).step = 0 := rfl
      refine ⟨hframe.maxSeqLen, InCache.congr hframe.sizes ?_⟩
      refine (inCache_iff (by omega) (by omega)).2 ?_
      rcases hfits promptTokens hprompt with h | h
      · exact .inl h
      · exact .inr (by omega)

/-- The layers of a model without a `MoEConfig` use the generic caches, whose heads fit. -/
theorem cacheFits_none (cfg : Config) : CacheFits cfg none := by
  rintro layer fam ⟨⟩
  trivial

/-- In every run of the two loops, on any configuration and the cache that `main.c` allocates for it, every forward pass stays
in the cache if the heads fit in the head stride, and the prompt leaves room in the window or no position behind the cache can
be reached. `generate_with_reasoning` passes no `MoEConfig`, and so needs the generic caches. -/
theorem generation_in_cache (callback : Nat → List UInt8 → Bool) (greedy : Bool) (cfg : Config) (prompt : List UInt8)
    (maxTokens : Int) (s : RunState F X L C R) (hs : s.maxSeqLen = launchMaxSeqLen cfg mc) (hoff : 0 ≤ s.currentPos) :
    (CacheFits cfg mc → CallbackFits cfg tok prompt maxTokens s.maxSeqLen s.currentPos ∨ (∀ m ∈ mc, m.hasLinearAttn = false) →
      ∀ g ∈ callbackStates K cfg mc tok smp callback prompt maxTokens s, PassInCache cfg mc mc g.s (g.step + s.currentPos)) ∧
    (HasGenericCache mc → ReasoningFits tok prompt maxTokens s.maxSeqLen →
      ∀ g ∈ reasoningReached K cfg tok greedy smp prompt maxTokens s, PassInCache cfg mc none g.s g.pos) := by
  refine ⟨fun hheads hcond g hg => ?_, fun hgeneric hfits g hg => ?_⟩
  · have hfits : CallbackFits cfg tok prompt maxTokens s.maxSeqLen s.currentPos := by
      rcases hcond with hfits | hlin
      · exact hfits
      · -- without the clamp of the hybrid models the cache is as long as the context
        rw [launchMaxSeqLen_eq hlin] at hs
        exact fun promptTokens _ => .inr (.inl (le_of_eq hs.symm))
    obtain ⟨heq, hin⟩ := callbackStates_inCache K mc tok smp _ callback prompt maxTokens s hoff hfits g hg
    exact passInCache hheads (fun _ => hasGenericCache_of_family) (by rwa [heq])
  · obtain ⟨heq, hin⟩ := reasoningReached_inCache K tok smp _ greedy prompt maxTokens s hfits g hg
    exact passInCache (cacheFits_none cfg) (fun _ _ => hgeneric) (by rwa [heq])

end

/-! ## Runs on a long prompt -/

def unitKernels : Kernels Unit Unit Unit Unit Unit where
  embedToken _ := ()
  project _ _ _ _ _ _ := ()
  attend _ _ _ _ _ := ()
  linearAttn _ _ _ _ := ((), (), ())
  ffn _ _ _ _ := ()
  finalNorm _ := ()
  classify _ := ()

def unitSampling : Sampling Unit where
  greedy := true
  nucleus := false
  sampleArgmax _ := 0
  applyTemperature _ := ()
  sampleTopP _ _ := 0
  softmax _ := ()
  pickCdf _ _ := 0

/-- A tokenizer whose prompts have `n` tokens, if there is room for them. -/
def lengthTokenizer (n : Nat) : Transformer.Tokenizer where
  encode _ maxTokens := some (List.replicate (min n maxTokens.toNat) 0)
  decode _ _ := some (ascii "a")
  findId _ := -1
  vocab := [ascii "a"]
  chatTemplate := none
  chatTemplateApply _ _ _ _ := none
  bosTokenId := -1
  eosTokenId := -1
  eosList := []

def freshState (maxSeqLen : Int) : RunState Unit Unit Unit Unit Unit where
  x := ()
  logits := ()
  kv := ⟨fun _ _ => (), swInit maxSeqLen 0⟩
  q35ConvState _ := ()
  q35RecurState _ := ()
  currentPos := 0
  maxSeqLen := maxSeqLen

/-- A model with a context of 512 positions. -/
def wideModel : Config where
  dim := 524288
  nLayers := 4
  nHeads := 128
  nKvHeads := 128
  vocabSize := 1
  seqLen := 512
  bosTokenId := 0
  eosTokenId := 0

/-- Its attention layers as those of a hybrid model, every layer with full attention. -/
def wideHybrid : MoEConfig where
  hasMla := false
  qkNopeHeadDim := 0
  qkRopeHeadDim := 0
  vHeadDim := 0
  hasLinearAttn := true
  fullAttentionInterval := 1
  attnHeadDim := 4096
  hasQkNorm := false

theorem generation_in_cache_dense :
    (callbackStates unitKernels wideModel none (lengthTokenizer 300) unitSampling (fun _ _ => false) [] 10
      (freshState 512)).length = 310 ∧
    ∀ g ∈ callbackStates unitKernels wideModel none (lengthTokenizer 300) unitSampling (fun _ _ => false) [] 10 (freshState 512),
      PassInCache wideModel none none g.s (g.step + 0) :=
  ⟨by decide +kernel, (generation_in_cache unitKernels none (lengthTokenizer 300) unitSampling (fun _ _ => false) true
    wideModel [] 10 (freshState 512) rfl (by decide)).1 (cacheFits_none _) (.inr nofun)⟩

/-- The cache of the hybrid model has 256 slots, and a prompt of 300 tokens runs over its end. -/
theorem long_prompt_leaves_cache :
    (launchConfig wideModel (gigabytes 33) wideHybrid = some wideModel ∧
      (freshState 256).maxSeqLen = launchMaxSeqLen wideModel wideHybrid) ∧
    ∃ g ∈ callbackStates unitKernels wideModel wideHybrid (lengthTokenizer 300) unitSampling (fun _ _ => false) [] 10
      (freshState 256), ¬ InCache g.s.maxSeqLen g.s.kv.sw (g.step + (freshState 256).currentPos) := by
  refine ⟨⟨by decide +kernel, by decide +kernel⟩, ?_⟩
  have hprompt : encodePrompt wideModel (lengthTokenizer 300) [] = some (List.replicate 300 0) := by decide +kernel
  unfold callbackStates
  rw [hprompt]
  have hbound : (min ((List.replicate 300 (0 : Int)).length + 10 : Int)
      (wideModel.seqLen - (freshState 256).currentPos)).toNat = 310 := by decide +kernel
  dsimp only
  rw [hbound]
  obtain ⟨g, hmem, hstep⟩ := generateStates_prompt unitKernels wideModel wideHybrid
    (lengthTokenizer 300) unitSampling (fun _ _ => false) (List.replicate 300 0) (freshState 256).currentPos 310
    { s := { freshState 256 with kv := { (freshState 256).kv with
        sw := swInit (freshState 256).maxSeqLen ((List.replicate 300 (0 : Int)).length + (freshState 256).currentPos) } }
      step := 0
      prevToken := -1
      next := 0
      tokensGenerated := 0
      calls := []
      emitted := [] } 256 (Nat.zero_le _) (by decide) (by decide +kernel)
  obtain ⟨hframe, -, -⟩ := generateStates_frame unitKernels wideModel wideHybrid
    (lengthTokenizer 300) unitSampling (fun _ _ => false) (List.replicate 300 0) (freshState 256).currentPos 310 _ g hmem
  refine ⟨g, hmem, fun hin => ?_⟩
  have hsize : g.s.maxSeqLen = 256 := hframe.maxSeqLen
  have hlen : ((List.replicate 300 (0 : Int)).length : Int) + (freshState 256).currentPos = 300 := by decide +kernel
  have hsw : SameSizes (swInit 256 300) g.s.kv.sw := by
    rw [← hlen]
    exact hframe.sizes
  rw [hsize, hstep] at hin
  have hbelow := (inCache_iff (by decide) (by decide)).1 (hin.congr hsw.symm)
  revert hbelow
  decide

end BitForge.Reasoning
