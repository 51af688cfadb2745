/-
Requests one after the other on the same run state. `current_pos`, the recurrent and convolution
states and the window before the generation are never reset; a request whose pass starts at
position 0, with nothing of these to read, makes the same calls after every history.
-/
import BitForge.Server.Chat
import BitForge.Transformer.TwoRuns

namespace BitForge.Server

open BitForge.Lib BitForge.Kv BitForge.Transformer

section

variable {F X L C R : Type} (ctx : ApiContext F X L C R)

/-! ## The condition of a request -/

/-- The tokens of the vision prefix of a request, and the embeddings of its image. -/
def visionWork (r : Request X L) : List Int × List X :=
  match visionInput ctx r with
  | none => ([], [])
  | some (i, patches) =>
    (((visionPrefix ctx.tok (contentAt r.chat.messages i)).map Prod.snd).getD [], patches)

/-- The prompt tokens of a request. -/
def requestTokens (r : Request X L) : Option (List Int) :=
  (choosePrompt ctx (messagesAfterVision ctx r) r.chat).bind (encodePrompt ctx.cfg ctx.tok)

/-- The condition of a request: the model has no linear-attention layer and no layer that reads the
static buffer of the experts unquantized, the run state is at position 0, all tokens are in the vocabulary; and where an image is loaded, all layers use the
generic caches, for the window of which the state has been set up. -/
structure StepOk (r : Request X L) (s : RunState F X L C R) : Prop where
  noLinear : NoLinear ctx.cfg ctx.moeCfg
  fresh : FfnFresh ctx.kernels ctx.cfg ctx.moeCfg
  currentPos : s.currentPos = 0
  sampled : r.smp.InVocab ctx.cfg
  tokens : ∀ ts, requestTokens ctx r = some ts → (∀ t ∈ ts, InVocab ctx.cfg t) ∧ (ts = [] → InVocab ctx.cfg 0)
  vision : visionWork ctx r ≠ ([], []) →
    s.kv.sw.windowSize = s.maxSeqLen ∧ (∀ layer < ctx.cfg.nLayers, attnFamily ctx.moeCfg layer = some .generic) ∧
      (∀ t ∈ (visionWork ctx r).1, InVocab ctx.cfg t) ∧ (visionWork ctx r).1.length ≤ s.maxSeqLen

/-! ## The vision pipeline in two runs -/

/-- Below its size a window maps every position to itself. -/
theorem swMapPosition_id {sw : SlidingWindow} {p : Int} (h : p < sw.windowSize) : swMapPosition sw p = p := by
  unfold swMapPosition
  dsimp only
  split_ifs with hspl hsize
  · rfl
  · omega
  · rw [Int.tmod_eq_of_lt (by omega) (by omega)]; omega

theorem sameWindow_of_size {W : Int} {sw sw' : SlidingWindow} (h : sw.windowSize = W) (h' : sw'.windowSize = W) :
    SameWindow W sw sw' := by
  intro p _ hp
  rw [swMapPosition_id (by omega), swMapPosition_id (by omega)]
  unfold swValidCount
  rw [h, h']
  exact ⟨rfl, rfl⟩

variable {ctx}

/-- The states within the vision pipeline: at the same position, with windows of the full size. -/
structure VisionAgree (ctx : ApiContext F X L C R) (s s' : RunState F X L C R) : Prop where
  nonneg : 0 ≤ s.currentPos
  le : s.currentPos ≤ s.maxSeqLen
  agree : Agree ctx.cfg ctx.moeCfg s.maxSeqLen s.currentPos 0 s s'
  window : s.kv.sw.windowSize = s.maxSeqLen

/-- A pass of the pipeline and the step to the next position. -/
theorem VisionAgree.next {s s' t t' : RunState F X L C R} (h : VisionAgree ctx s s') (hlt : s.currentPos < s.maxSeqLen)
    (hf : SameFrame s t)
    (ha : Agree ctx.cfg ctx.moeCfg s.maxSeqLen (s.currentPos + 1) 0 t t') :
    VisionAgree ctx { t with currentPos := t.currentPos + 1 } { t' with currentPos := t'.currentPos + 1 } where
  nonneg := by
    show 0 ≤ t.currentPos + 1
    rw [hf.currentPos]
    have := h.nonneg
    omega
  le := by
    show t.currentPos + 1 ≤ t.maxSeqLen
    rw [hf.currentPos, hf.maxSeqLen]
    omega
  agree := by
    have ht : Agree ctx.cfg ctx.moeCfg t.maxSeqLen (t.currentPos + 1) 0 t t' := by
      rw [hf.maxSeqLen, hf.currentPos]
      exact ha
    exact ⟨congrArg (· + 1) ht.currentPos, ht.maxSeqLen, ht.window, ht.entries⟩
  window := by
    show t.kv.sw.windowSize = t.maxSeqLen
    rw [hf.sizes.1, hf.maxSeqLen]
    exact h.window

theorem prefixForward_agree (hlin : NoLinear ctx.cfg ctx.moeCfg) (hfresh : FfnFresh ctx.kernels ctx.cfg ctx.moeCfg) : ∀ (ts : List Int) {s s' : RunState F X L C R},
    (∀ t ∈ ts, InVocab ctx.cfg t) → s.currentPos + ts.length ≤ s.maxSeqLen → VisionAgree ctx s s' →
      (prefixForward ctx ts s').2 = (prefixForward ctx ts s).2 ∧
        VisionAgree ctx (prefixForward ctx ts s).1 (prefixForward ctx ts s').1
  | [], _, _, _, _, h => ⟨rfl, h⟩
  | t :: ts, s, s', hts, hlen, h => by
    rw [List.length_cons] at hlen
    have ht := hts t (List.mem_cons_self ..)
    obtain ⟨ha, hlogits⟩ := transformerForward_agree ctx.kernels hlin hfresh h.nonneg (by omega) (.inl ht.2)
      (fun hneg => absurd ht.1 (by omega)) h.agree
    have hframe := transformerForward_frame ctx.kernels ctx.cfg ctx.moeCfg t s.currentPos s
    obtain ⟨hcalls, hnext⟩ := prefixForward_agree hlin hfresh ts (fun t' ht' => hts t' (List.mem_cons_of_mem _ ht'))
      (by show _ + 1 + _ ≤ _; rw [hframe.currentPos, hframe.maxSeqLen]; omega) (h.next (by omega) hframe ha)
    have hpos := h.agree.currentPos
    unfold prefixForward
    dsimp only
    rw [hpos]
    exact ⟨by rw [hcalls, hlogits], hnext⟩

/-- For models without special attention the passes without `MoEConfig` use the same caches. -/
theorem agree_generic (hgen : ∀ layer < ctx.cfg.nLayers, attnFamily ctx.moeCfg layer = some .generic) {N n : Int} {k : Nat}
    {s s' : RunState F X L C R} : Agree ctx.cfg none N n k s s' ↔ Agree ctx.cfg ctx.moeCfg N n k s s' := by
  have hgeo : ∀ m, kvGeometry ctx.cfg none m .generic = kvGeometry ctx.cfg ctx.moeCfg m .generic := by
    intro m; unfold kvGeometry; cases ctx.moeCfg <;> rfl
  constructor
  · rintro ⟨hc, hm, hw, he⟩
    refine ⟨hc, hm, hw, fun layer hl fam hfam => ?_⟩
    rw [hgen layer hl] at hfam
    cases hfam
    rw [← hgeo]
    exact he layer hl .generic rfl
  · rintro ⟨hc, hm, hw, he⟩
    refine ⟨hc, hm, hw, fun layer hl fam hfam => ?_⟩
    cases hfam
    rw [hgeo]
    exact he layer hl .generic (hgen layer hl)

theorem injectVision_agree (hgen : ∀ layer < ctx.cfg.nLayers, attnFamily ctx.moeCfg layer = some .generic) :
    ∀ (patches : List X) {s s' : RunState F X L C R}, VisionAgree ctx s s' →
      (injectVisionIntoKvCache ctx patches s').2 = (injectVisionIntoKvCache ctx patches s).2 ∧
        VisionAgree ctx (injectVisionIntoKvCache ctx patches s).1 (injectVisionIntoKvCache ctx patches s').1
  | [], _, _, h => ⟨rfl, h⟩
  | patch :: patches, s, s', h => by
    obtain ⟨x, logits, kv, conv, recur, pos, maxSeqLen, q8k⟩ := s
    obtain ⟨x', logits', kv', conv', recur', pos', maxSeqLen', q8k'⟩ := s'
    obtain rfl : pos' = pos := h.agree.currentPos
    obtain rfl : maxSeqLen' = maxSeqLen := h.agree.maxSeqLen
    unfold injectVisionIntoKvCache
    dsimp only
    by_cases hfull : pos' ≥ maxSeqLen'
    · rw [if_pos hfull, if_pos hfull]
      exact ⟨rfl, h⟩
    · rw [if_neg hfull, if_neg hfull]
      have hlin : NoLinear ctx.cfg none := fun _ _ => rfl
      have hx : Agree ctx.cfg none maxSeqLen' pos' 0 ⟨patch, logits, kv, conv, recur, pos', maxSeqLen', q8k⟩
          ⟨patch, logits', kv', conv', recur', pos', maxSeqLen', q8k'⟩ :=
        (agree_generic hgen).2 ⟨rfl, rfl, h.agree.window, h.agree.entries⟩
      have htok : (-1 : Int) < ctx.cfg.vocabSize ∨ (-1 : Int) < 0 := .inr (by decide)
      obtain ⟨ha, hlogits⟩ := transformerForward_agree ctx.kernels hlin ffnFresh_dense h.nonneg (not_le.1 hfull) htok
        (fun _ => Eq.refl patch) hx
      have hset : SameFrame ⟨x, logits, kv, conv, recur, pos', maxSeqLen', q8k⟩ ⟨patch, logits, kv, conv, recur, pos', maxSeqLen', q8k⟩ :=
        ⟨rfl, rfl, SameSizes.refl _⟩
      have hframe := hset.trans (transformerForward_frame ctx.kernels ctx.cfg none (-1) pos' _)
      obtain ⟨hcalls, hnext⟩ := injectVision_agree hgen patches (h.next (not_le.1 hfull) hframe ((agree_generic hgen).1 ha))
      exact ⟨by rw [hcalls, hlogits], hnext⟩

/-! ## The generation in two runs -/

/-- Two states before the generation: at the same position, with the same entries before it. -/
structure Filled (ctx : ApiContext F X L C R) (s s' : RunState F X L C R) : Prop where
  nonneg : 0 ≤ s.currentPos
  currentPos : s'.currentPos = s.currentPos
  maxSeqLen : s'.maxSeqLen = s.maxSeqLen
  entries : ∀ layer < ctx.cfg.nLayers, ∀ fam, attnFamily ctx.moeCfg layer = some fam → ∀ p, 0 ≤ p → p < s.currentPos →
    ∀ r ∈ kvRegions (kvGeometry ctx.cfg ctx.moeCfg s.maxSeqLen fam) fam layer p, Mem.AgreeOn s.kv.mem s'.kv.mem r

theorem VisionAgree.filled {s s' : RunState F X L C R} (h : VisionAgree ctx s s') : Filled ctx s s' where
  nonneg := h.nonneg
  currentPos := h.agree.currentPos
  maxSeqLen := h.agree.maxSeqLen
  entries := by
    intro layer hl fam hfam p hp0 hp r hr
    have hid : swMapPosition s.kv.sw p = p := swMapPosition_id (by have := h.le; rw [h.window]; omega)
    exact h.agree.entries layer hl fam hfam p hp0 (.inl hp) r (by rw [hid]; exact hr)

/-- The generation pins the prompt and what stands before it, so these entries keep their slots. -/
theorem generate_agree {tok : Transformer.Tokenizer} {smp : Sampling L} {callback : Nat → List UInt8 → Bool} {prompt : List UInt8}
    {maxTokens : Int} (hlin : NoLinear ctx.cfg ctx.moeCfg) (hfresh : FfnFresh ctx.kernels ctx.cfg ctx.moeCfg) (hsmp : smp.InVocab ctx.cfg)
    (htok : ∀ ts, encodePrompt ctx.cfg tok prompt = some ts →
      (∀ t ∈ ts, InVocab ctx.cfg t) ∧ (ts = [] → InVocab ctx.cfg 0))
    {s s' : RunState F X L C R} (h : Filled ctx s s') :
    (generateWithCallback ctx.kernels ctx.cfg ctx.moeCfg tok smp callback prompt maxTokens s').2 =
      (generateWithCallback ctx.kernels ctx.cfg ctx.moeCfg tok smp callback prompt maxTokens s).2 := by
  obtain ⟨x, logits, kv, conv, recur, pos, maxSeqLen, q8k⟩ := s
  obtain ⟨x', logits', kv', conv', recur', pos', maxSeqLen', q8k'⟩ := s'
  obtain ⟨hnonneg, hpos, hmax, hentries⟩ := h
  dsimp only at hnonneg hpos hmax hentries
  subst hpos hmax
  unfold generateWithCallback
  cases hts : encodePrompt ctx.cfg tok prompt with
  | none => rfl
  | some ts =>
    obtain ⟨hin, hzero⟩ := htok ts hts
    dsimp only
    generalize hn : (min ((ts.length : Int) + maxTokens) (ctx.cfg.seqLen - pos')).toNat = n
    have hspl : ∀ p, p < pos' → swMapPosition (swInit maxSeqLen' (ts.length + pos')) p = p := by
      intro p hp
      unfold swMapPosition
      dsimp only [swInit]
      rw [if_pos (by omega)]
    have hstart : GenAgree ctx.cfg ctx.moeCfg ts pos' (pos' + n)
        ⟨⟨x, logits, ⟨kv.mem, swInit maxSeqLen' (ts.length + pos')⟩, conv, recur, pos', maxSeqLen', q8k⟩, 0, -1, 0, 0, [], []⟩
        ⟨⟨x', logits', ⟨kv'.mem, swInit maxSeqLen' (ts.length + pos')⟩, conv', recur', pos', maxSeqLen', q8k'⟩, 0, -1, 0, 0, [],
          []⟩ := by
      refine ⟨⟨rfl, rfl, fun _ _ _ => ⟨rfl, rfl⟩, ?_⟩, rfl, fun hle => hzero (List.length_eq_zero_iff.1 (Nat.le_zero.1 hle))⟩
      intro layer hl fam hfam p hp0 hp r hr
      dsimp only at hp hr ⊢
      have hlt : p < pos' := by omega
      rw [hspl p hlt] at hr
      exact hentries layer hl fam hfam p hp0 hlt r hr
    have hloop := generateLoop_agree ctx.kernels tok callback hlin hfresh hsmp hin hnonneg n
      (show ((0 : Nat) : Int) + pos' + n ≤ pos' + n by omega) hstart
    rw [hloop]

/-! ## Histories -/

theorem filled_zero {s s' : RunState F X L C R} (h : s.currentPos = 0) (h' : s'.currentPos = 0)
    (hmax : s'.maxSeqLen = s.maxSeqLen) : Filled ctx s s' :=
  ⟨by omega, by omega, hmax, fun _ _ _ _ p hp0 hp => by omega⟩

theorem serveVision_agree {r : Request X L} {s s' : RunState F X L C R} (hmax : s'.maxSeqLen = s.maxSeqLen)
    (h : StepOk ctx r s) (h' : StepOk ctx r s') :
    (serveVision ctx r s').2 = (serveVision ctx r s).2 ∧ Filled ctx (serveVision ctx r s).1 (serveVision ctx r s').1 := by
  have hv := h.vision
  have hv' := h'.vision
  unfold visionWork at hv hv'
  unfold serveVision
  cases hr : visionInput ctx r with
  | none => exact ⟨rfl, filled_zero h.currentPos h'.currentPos hmax⟩
  | some p =>
    obtain ⟨i, patches⟩ := p
    rw [hr] at hv hv'
    dsimp only at hv hv' ⊢
    unfold visionPipelineRun
    generalize ((visionPrefix ctx.tok (contentAt r.chat.messages i)).map Prod.snd).getD [] = ts at hv hv' ⊢
    by_cases hnone : (ts, patches) = ([], [])
    · cases hnone
      exact ⟨rfl, filled_zero h.currentPos h'.currentPos hmax⟩
    · obtain ⟨hw, hgen, hin, hlen⟩ := hv hnone
      obtain ⟨hw', -⟩ := hv' hnone
      have hstart : VisionAgree ctx s s' := by
        refine ⟨by rw [h.currentPos], by rw [h.currentPos]; omega, ⟨?_, hmax, ?_, ?_⟩, hw⟩
        · rw [h.currentPos, h'.currentPos]
        · exact sameWindow_of_size hw (hw'.trans hmax)
        · intro _ _ _ _ p hp0 hp
          rw [h.currentPos] at hp
          omega
      obtain ⟨hpre, hmid⟩ := prefixForward_agree h.noLinear h.fresh ts hin (by rw [h.currentPos]; omega) hstart
      obtain ⟨hinj, hend⟩ := injectVision_agree hgen patches hmid
      exact ⟨by dsimp only; rw [hpre, hinj], hend.filled⟩

theorem serveText_agree {r : Request X L} {s t t' : RunState F X L C R} (h : StepOk ctx r s) (hf : Filled ctx t t') :
    (serveText ctx r t').2 = (serveText ctx r t).2 := by
  have htokens := h.tokens
  unfold requestTokens at htokens
  unfold serveText
  cases hprompt : choosePrompt ctx (messagesAfterVision ctx r) r.chat with
  | none => rfl
  | some prompt =>
    rw [hprompt] at htokens
    exact generate_agree h.noLinear h.fresh h.sampled htokens hf

/-- A request whose step meets the condition makes the same calls from both states. -/
theorem serve_agree {r : Request X L} {s s' : RunState F X L C R} (hmax : s'.maxSeqLen = s.maxSeqLen)
    (h : StepOk ctx r s) (h' : StepOk ctx r s') : (serve ctx r s').2 = (serve ctx r s).2 := by
  obtain ⟨hvision, hfilled⟩ := serveVision_agree hmax h h'
  have htext := serveText_agree h hfilled
  unfold serve
  split
  · rfl
  · dsimp only
    rw [hvision]
    exact congrArg (fun p => ((serveVision ctx r s).2 ++ p.1, p.2)) htext

/-! ## No request changes the size of the caches -/

theorem generateLoop_maxSeqLen {K : Kernels F X L C R} {cfg : Config} {mc : Option MoEConfig} {tok : Transformer.Tokenizer}
    {smp : Sampling L} {callback : Nat → List UInt8 → Bool} {ts : List Int} {off : Int} :
    ∀ (n : Nat) (g : GenState F X L C R),
      (generateLoop K cfg mc tok smp callback ts off n g).s.maxSeqLen = g.s.maxSeqLen
  | 0, _ => rfl
  | n + 1, g => by
    have hstep : (generateStep K cfg mc tok smp callback ts off g).1.s.maxSeqLen = g.s.maxSeqLen := by
      unfold generateStep GenState.forward
      dsimp only
      split_ifs <;> exact transformerForward_maxSeqLen ..
    unfold generateLoop
    rcases hr : generateStep K cfg mc tok smp callback ts off g with ⟨t, brk⟩
    rw [hr] at hstep
    cases brk with
    | true => exact hstep
    | false => exact (generateLoop_maxSeqLen n t).trans hstep

theorem prefixForward_maxSeqLen : ∀ (ts : List Int) (s : RunState F X L C R),
    (prefixForward ctx ts s).1.maxSeqLen = s.maxSeqLen
  | [], _ => rfl
  | _ :: ts, _ => (prefixForward_maxSeqLen ts _).trans (transformerForward_maxSeqLen ..)

theorem injectVision_maxSeqLen : ∀ (patches : List X) (s : RunState F X L C R),
    (injectVisionIntoKvCache ctx patches s).1.maxSeqLen = s.maxSeqLen
  | [], _ => rfl
  | patch :: patches, s => by
    unfold injectVisionIntoKvCache
    split
    · rfl
    · exact (injectVision_maxSeqLen patches _).trans (transformerForward_maxSeqLen ..)

theorem serve_maxSeqLen (r : Request X L) (s : RunState F X L C R) : (serve ctx r s).1.maxSeqLen = s.maxSeqLen := by
  have hvision : (serveVision ctx r s).1.maxSeqLen = s.maxSeqLen := by
    unfold serveVision
    split
    · rfl
    · exact (injectVision_maxSeqLen _ _).trans (prefixForward_maxSeqLen _ _)
  have htext : ∀ t, (serveText ctx r t).1.maxSeqLen = t.maxSeqLen := by
    intro t
    unfold serveText
    split
    · rfl
    · unfold generateWithCallback
      split
      · rfl
      · exact generateLoop_maxSeqLen _ _
  unfold serve
  split
  · rfl
  · exact (htext _).trans hvision

theorem serveAll_maxSeqLen : ∀ (rs : List (Request X L)) (s : RunState F X L C R),
    (serveAll ctx rs s).maxSeqLen = s.maxSeqLen
  | [], _ => rfl
  | r :: rs, s => (serveAll_maxSeqLen rs _).trans (serve_maxSeqLen r s)

end

/-! ## Independence of the history -/

/-- A request that meets the condition after both histories makes the same calls, gets the same
logits and streams the same pieces; and so it does from every state that meets the condition,
whatever the caches, the activation and the logits of that state hold. -/
theorem serve_independent {F X L C R : Type} (ctx : ApiContext F X L C R) (init : RunState F X L C R)
    (h₁ h₂ : List (Request X L)) (r : Request X L) (ok₁ : StepOk ctx r (serveAll ctx h₁ init))
    (ok₂ : StepOk ctx r (serveAll ctx h₂ init)) :
    (serve ctx r (serveAll ctx h₁ init)).2 = (serve ctx r (serveAll ctx h₂ init)).2 ∧
      ∀ s, s.maxSeqLen = init.maxSeqLen → StepOk ctx r s → (serve ctx r s).2 = (serve ctx r (serveAll ctx h₁ init)).2 :=
  ⟨serve_agree (by rw [serveAll_maxSeqLen, serveAll_maxSeqLen]) ok₂ ok₁,
    fun _ hmax ok => serve_agree (by rw [hmax, serveAll_maxSeqLen]) ok₁ ok⟩

/-! ## Requests that depend on the history -/

/-- Kernels on integers; a linear-attention layer adds its recurrent state and counts in it, and experts add what they find in
the static buffer. -/
def countKernels : Kernels Int Int Int Int Int :=
  { embedToken := id
    project := fun _ _ _ _ _ _ => 0
    attend := fun _ _ _ x _ => x
    linearAttn := fun _ x c r => (x + r, c, r + 1)
    ffn := fun _ _ x q8k => x + q8k.getD 0
    finalNorm := id
    classify := id }

/-- A server of a model with one layer and two tokens, a letter and the end of the sequence. -/
def letterServer (mc : Option MoEConfig) : ApiContext Int Int Int Int Int :=
  { kernels := countKernels
    cfg := ⟨1, 1, 1, 1, 2, 8, -1, 1⟩
    moeCfg := mc
    tok :=
      { encode := fun text _ => some (text.map fun _ => 0)
        decode := fun _ _ => some (ascii "a")
        findId := fun _ => -1
        vocab := [ascii "a", ascii "</s>"]
        chatTemplate := none
        chatTemplateApply := fun _ _ _ _ => none
        bosTokenId := -1
        eosTokenId := 1
        eosList := [1] }
    visionConfigured := true
    compilePrompt := fun chat => lastUserContent chat.messages }

/-- One message of one letter, answered by the end of the sequence. -/
def letterRequest (image : Option (List UInt8)) : Request Int Int :=
  { chat := { model := [], messages := [⟨ascii "user", some (ascii "a"), image⟩], maxTokens := 1 }
    patches := some [7]
    smp :=
      { greedy := true
        nucleus := false
        sampleArgmax := fun _ => 1
        applyTemperature := id
        sampleTopP := fun _ _ => 1
        softmax := id
        pickCdf := fun _ _ => 1 }
    callback := fun _ _ => false }

/-- The run state after `run_state_alloc`. -/
def letterState : RunState Int Int Int Int Int := ⟨0, 0, ⟨fun _ _ => 0, swInit 0 0⟩, fun _ => 0, fun _ => 0, 0, 8, none⟩

/-- The configuration of a model with linear-attention layers. -/
def hybridConfig : MoEConfig where
  hasMla := false
  qkNopeHeadDim := 0
  qkRopeHeadDim := 0
  vHeadDim := 0
  hasLinearAttn := true
  fullAttentionInterval := 4
  attnHeadDim := 1
  hasQkNorm := false

/-- The configuration of a model with experts, and one that is shared. -/
def expertConfig : MoEConfig :=
  { hybridConfig with
    hasLinearAttn := false
    isMoe := true
    nSharedExperts := 1 }

/-- A server of a model with two layers of experts of the type Q8_0, beside shared experts of the type Q4_K but for the gate
projection, which has a type of its own in each layer. -/
def expertServer (gateType : Nat → Int) : ApiContext Int Int Int Int Int :=
  { letterServer (some expertConfig) with
    cfg := ⟨256, 2, 1, 1, 2, 8, -1, 1⟩
    kernels :=
      { countKernels with
        ffnNorm := fun _ x => x + 1
        expertTypes :=
          { hasExpertQuant := true
            expertW13QuantType := 8
            sharedW1Type := fun layer => some (gateType layer)
            sharedW3Type := fun _ => some 12
            sharedW1 := fun _ => true } } }

theorem serve_independent_letter :
    (serve (expertServer fun _ => 12) (letterRequest none) letterState).2 =
      (serve (expertServer fun _ => 12) (letterRequest none)
        (serveAll (expertServer fun _ => 12) [letterRequest none] letterState)).2 := by
  have hsmp : (letterRequest none).smp.InVocab (expertServer fun _ => 12).cfg :=
    fun _ _ => (by decide : InVocab (expertServer fun _ => 12).cfg 1)
  have htok : ∀ ts, requestTokens (expertServer fun _ => 12) (letterRequest none) = some ts →
      (∀ t ∈ ts, InVocab (expertServer fun _ => 12).cfg t) ∧ (ts = [] → InVocab (expertServer fun _ => 12).cfg 0) := by
    rintro _ ⟨⟩
    exact ⟨by decide, nofun⟩
  have hfresh : FfnFresh (expertServer fun _ => 12).kernels (expertServer fun _ => 12).cfg (expertServer fun _ => 12).moeCfg := by
    rintro layer - c ⟨⟩ -
    exact .inr (.inr ⟨rfl, .inr rfl⟩)
  exact (serve_independent (expertServer fun _ => 12) letterState [] [letterRequest none] (letterRequest none)
    ⟨fun _ _ => rfl, hfresh, rfl, hsmp, htok, fun h => absurd rfl h⟩
    ⟨fun _ _ => rfl, hfresh, rfl, hsmp, htok, fun h => absurd rfl h⟩).1

/-- After one request the recurrent state of a linear-attention layer changes the logits of the
next, and after an image the next request starts at position 1; and where the gate projection of the first layer alone is not
of the type Q4_K, the layer reads what the second has left in the static buffer. -/
theorem serve_after_history :
    let hybrid := letterServer (some hybridConfig)
    let experts := expertServer fun layer => if layer = 0 then 0 else 12
    let r := letterRequest none
    (serve hybrid r (serveAll hybrid [r] letterState)).2 ≠ (serve hybrid r letterState).2 ∧
      (serve (letterServer none) r (serveAll (letterServer none) [letterRequest (some [])] letterState)).2 ≠
        (serve (letterServer none) r letterState).2 ∧
      (serve experts r (serveAll experts [r] letterState)).2 ≠ (serve experts r letterState).2 := by
  decide

end BitForge.Server
