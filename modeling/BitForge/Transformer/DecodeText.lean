/-
The generation loop against decoding without caches: each token is sampled from the logits that the
layers give for the whole text before it. With a cache that holds the whole sequence, the pieces
that `generate_with_callback` delivers are those of this decoding.
-/
import BitForge.Transformer.Recompute
import BitForge.Transformer.TwoRuns

namespace BitForge.Transformer

open BitForge.Lib BitForge.Kv

/-! ## Decoding without caches -/

section

variable {F X L C R : Type} (K : Kernels F X L C R) (cfg : Config) (mc : Option MoEConfig)

/-- A text, given by the activations of its positions, as a sequence. -/
def textSequence (text : List X) (pos : Nat) : X := text.getD pos (K.embedToken 0)

/-- The logits after a text. -/
def textLogits (start : Nat → C × R) (text : List X) : L :=
  K.classify (sequenceOutput K cfg mc text.length start (textSequence K text) (text.length - 1))

variable (tok : Tokenizer) (smp : Sampling L) (callback : Nat → List UInt8 → Bool)

/-- The pieces after `out` when `text` is continued by at most `n` tokens. -/
def decodeText (start : Nat → C × R) : Nat → List X → Nat → Int → List (List UInt8) → List (List UInt8)
  | 0, _, _, _, out => out
  | n + 1, text, step, prevToken, out =>
    let next := (sampleNext smp step (textLogits K cfg mc start text)).1
    if isEos cfg tok next then out
    else
      match tok.decode prevToken next with
      | none => decodeText start n (text ++ [K.embedToken next]) (step + 1) next out
      | some piece =>
        if callback out.length piece then out ++ [piece]
        else decodeText start n (text ++ [K.embedToken next]) (step + 1) next (out ++ [piece])

/-- The tokens of the first text; the loop feeds token 0 where there are none. -/
def firstText (promptTokens : List Int) : List Int := if promptTokens = [] then [0] else promptTokens

/-- The token before the first sampled one, as the loop hands it to the decoder. -/
def firstPrevToken (promptTokens : List Int) : Int :=
  if promptTokens.length ≤ 1 then -1 else promptTokens.getD (promptTokens.length - 1) 0

end

/-! ## The state of the loop -/

section

variable {F X L C R : Type} {K : Kernels F X L C R} {cfg : Config} {mc : Option MoEConfig} {W spl : Int}
  {start : Nat → C × R}

theorem textSequence_append (text : List X) (x : X) {pos : Nat} (h : pos < text.length) :
    textSequence K (text ++ [x]) pos = textSequence K text pos := by
  unfold textSequence
  rw [List.getD_eq_getElem?_getD, List.getElem?_append_left h, List.getD_eq_getElem?_getD]

theorem textSequence_last (text : List X) (x : X) : textSequence K (text ++ [x]) text.length = x := by
  unfold textSequence
  rw [List.getD_eq_getElem?_getD, List.getElem?_concat_length, Option.getD_some]

/-- What lies ahead in a sequence does not matter to the state. -/
theorem Decoded.congr {e e' : Nat → X} {pos : Nat} {s : RunState F X L C R} (h : Decoded K cfg mc W spl start e pos 0 s)
    (he : ∀ L < pos, e L = e' L) : Decoded K cfg mc W spl start e' pos 0 s where
  maxSeqLen := h.maxSeqLen
  sizes := h.sizes
  entries := by
    intro layer hl fam hfam L hlt hnear
    rw [h.entries layer hl fam hfam L hlt hnear,
      sequenceActivations_congr K cfg mc start layer fun L' hL' => he L' (by omega)]
  linear := by
    intro layer hl hnone
    rw [h.linear layer hl hnone, if_neg (Nat.not_lt_zero layer)]
    exact linearStates_congr K layer (start layer) fun L hL =>
      sequenceActivations_congr K cfg mc start layer fun L' hL' => he L' (by omega)

/-- The logits of a state are scratch. -/
theorem Decoded.setLogits {e : Nat → X} {pos k : Nat} {s : RunState F X L C R} (h : Decoded K cfg mc W spl start e pos k s)
    (logits : L) : Decoded K cfg mc W spl start e pos k { s with logits := logits } :=
  ⟨h.maxSeqLen, h.sizes, h.entries, h.linear⟩

/-- A pass over a token of the vocabulary extends the text by it and gives its logits. -/
theorem transformerForward_text {text : List X} {s : RunState F X L C R} {token : Int} (hfits : CacheFits cfg mc) (hfresh : FfnFresh K cfg mc)
    (hroom : text.length < W) (htok : InVocab cfg token)
    (h : Decoded K cfg mc W spl start (textSequence K text) text.length 0 s) :
    Decoded K cfg mc W spl start (textSequence K (text ++ [K.embedToken token])) (text ++ [K.embedToken token]).length 0
        (transformerForward K cfg mc token text.length s) ∧
      (transformerForward K cfg mc token text.length s).logits = textLogits K cfg mc start (text ++ [K.embedToken token]) := by
  have hwin : WindowOk W spl text.length := windowOk (.inl hroom)
  have hin : passInput K token s = textSequence K (text ++ [K.embedToken token]) text.length := by
    rw [textSequence_last]
    exact if_pos htok.1
  have hd := h.congr fun L hL => (textSequence_append text (K.embedToken token) hL).symm
  obtain ⟨hnext, -, hlogits⟩ := transformerForward_decoded hfits hfresh hwin hd (fun _ => htok.2) hin
  have hlen : (text ++ [K.embedToken token]).length = text.length + 1 := List.length_append
  rw [hlen]
  refine ⟨hnext, hlogits.trans ?_⟩
  unfold textLogits sequenceOutput
  rw [hlen, Nat.add_sub_cancel, sequenceActivations_window K cfg mc start _ cfg.nLayers hroom]
  push_cast
  omega

variable {tok : Tokenizer} {smp : Sampling L} {callback : Nat → List UInt8 → Bool} {promptTokens : List Int} {posOffset : Int}

/-- The state of the loop before the pass that takes the text in up to its last position. -/
structure Follows (K : Kernels F X L C R) (cfg : Config) (mc : Option MoEConfig) (W spl : Int) (start : Nat → C × R)
    (posOffset : Int) (text : List X) (g : GenState F X L C R) : Prop where
  decoded : Decoded K cfg mc W spl start (textSequence K text) text.length 0 g.s
  position : (text.length : Int) = g.step + posOffset

/-- The token that the next pass of the loop takes in. -/
def GenState.token (promptTokens : List Int) (g : GenState F X L C R) : Int :=
  if g.step < promptTokens.length then promptTokens.getD g.step 0 else g.next

theorem Follows.forward {text : List X} {g : GenState F X L C R} (hfits : CacheFits cfg mc) (hfresh : FfnFresh K cfg mc) (hroom : text.length < W)
    (htok : InVocab cfg (g.token promptTokens)) (h : Follows K cfg mc W spl start posOffset text g) :
    Decoded K cfg mc W spl start (textSequence K (text ++ [K.embedToken (g.token promptTokens)])) (text.length + 1) 0
        (g.forward K cfg mc promptTokens posOffset).s ∧
      (g.forward K cfg mc promptTokens posOffset).s.logits =
        textLogits K cfg mc start (text ++ [K.embedToken (g.token promptTokens)]) := by
  obtain ⟨hd, hlogits⟩ := transformerForward_text hfits hfresh hroom htok h.decoded
  rw [List.length_append, List.length_singleton, h.position] at hd
  rw [h.position] at hlogits
  exact ⟨hd, hlogits⟩

/-- The pass and the step that follows it extend the text by the token taken in. -/
theorem Follows.next {text : List X} {g g' : GenState F X L C R} (hfits : CacheFits cfg mc) (hfresh : FfnFresh K cfg mc) (hroom : text.length < W)
    (htok : InVocab cfg (g.token promptTokens)) (h : Follows K cfg mc W spl start posOffset text g) {logits : L}
    (hs : g'.s = { (g.forward K cfg mc promptTokens posOffset).s with logits := logits }) (hstep : g'.step = g.step + 1) :
    Follows K cfg mc W spl start posOffset (text ++ [K.embedToken (g.token promptTokens)]) g' := by
  obtain ⟨hd, -⟩ := h.forward hfits hfresh hroom htok
  have hpos := h.position
  constructor
  · rw [List.length_append, List.length_singleton, hs]
    exact hd.setLogits logits
  · rw [List.length_append, List.length_singleton, hstep]
    push_cast
    omega

/-- Behind the prompt a pass takes in the token sampled last. -/
theorem GenState.token_behind {g : GenState F X L C R} (h : promptTokens.length ≤ g.step) : g.token promptTokens = g.next :=
  if_neg (Nat.not_lt.2 h)

/-- From its last prompt token on, the loop decodes the text. -/
theorem generateLoop_decodes (hfits : CacheFits cfg mc) (hfresh : FfnFresh K cfg mc) (hsmp : smp.InVocab cfg) : ∀ (n : Nat) {text : List X}
    {g : GenState F X L C R}, text.length + n ≤ W → InVocab cfg (g.token promptTokens) → promptTokens.length ≤ g.step + 1 →
    Follows K cfg mc W spl start posOffset text g →
    (generateLoop K cfg mc tok smp callback promptTokens posOffset n g).emitted =
      decodeText K cfg mc tok smp callback start n (text ++ [K.embedToken (g.token promptTokens)]) g.step g.prevToken g.emitted
  | 0, _, _, _, _, _, _ => rfl
  | n + 1, text, g, hroom, htok, hprompt, h => by
    push_cast at hroom
    obtain ⟨-, hlogits⟩ := h.forward hfits hfresh (by omega) htok
    have hlen : ((text ++ [K.embedToken (g.token promptTokens)]).length : Int) + n ≤ W := by
      rw [List.length_append, List.length_singleton]
      push_cast
      omega
    have hgo : ∀ (g' : GenState F X L C R) (logits : L), InVocab cfg g'.next →
        g'.s = { (g.forward K cfg mc promptTokens posOffset).s with logits := logits } → g'.step = g.step + 1 →
        (generateLoop K cfg mc tok smp callback promptTokens posOffset n g').emitted =
          decodeText K cfg mc tok smp callback start n
            (text ++ [K.embedToken (g.token promptTokens)] ++ [K.embedToken g'.next]) (g.step + 1) g'.prevToken
            g'.emitted := by
      intro g' logits hnext hs hstep
      have htoken : g'.token promptTokens = g'.next := GenState.token_behind (by omega)
      rw [generateLoop_decodes hfits hfresh hsmp n hlen (by rw [htoken]; exact hnext) (by omega)
        (h.next hfits hfresh (by omega) htok hs hstep), htoken, hstep]
    have hstep : (g.forward K cfg mc promptTokens posOffset).step = g.step := rfl
    have hprev : (g.forward K cfg mc promptTokens posOffset).prevToken = g.prevToken := rfl
    have hout : (g.forward K cfg mc promptTokens posOffset).emitted = g.emitted := rfl
    unfold generateLoop decodeText generateStep
    dsimp only
    rw [hstep, hprev, hout, hlogits, if_neg (by omega)]
    have hin := hsmp g.step (textLogits K cfg mc start (text ++ [K.embedToken (g.token promptTokens)]))
    generalize sampleNext smp g.step (textLogits K cfg mc start (text ++ [K.embedToken (g.token promptTokens)])) = sampled
      at hin ⊢
    obtain ⟨next, logits⟩ := sampled
    dsimp only at hin ⊢
    by_cases heos : isEos cfg tok next = true
    · rw [if_pos heos, if_pos heos]
    · rw [if_neg heos, if_neg heos]
      cases hpiece : tok.decode g.prevToken next with
      | none =>
        dsimp only
        rw [Option.toList_none, List.append_nil]
        rw [if_neg Bool.false_ne_true]
        exact hgo _ logits hin rfl rfl
      | some piece =>
        dsimp only
        by_cases hstop : callback g.emitted.length piece = true
        · rw [if_pos hstop, if_pos hstop]
          rfl
        · rw [if_neg hstop, if_neg hstop]
          exact hgo _ logits hin rfl rfl

/-- A step within the prompt samples nothing. -/
theorem generateStep_within {g : GenState F X L C R} (h : g.step + 1 < promptTokens.length) :
    generateStep K cfg mc tok smp callback promptTokens posOffset g =
      ({ g.forward K cfg mc promptTokens posOffset with
          next := promptTokens.getD (g.step + 1) 0
          prevToken := promptTokens.getD (g.step + 1) 0
          step := g.step + 1 }, false) := by
  have hstep : (g.forward K cfg mc promptTokens posOffset).step = g.step := rfl
  unfold generateStep
  dsimp only
  rw [hstep, if_pos h]

/-- With `k` tokens of the prompt still to be taken in before its last, the loop decodes the text and the whole prompt. -/
theorem generateLoop_throughPrompt (hfits : CacheFits cfg mc) (hfresh : FfnFresh K cfg mc) (hsmp : smp.InVocab cfg) (hin : ∀ t ∈ promptTokens, InVocab cfg t) :
    ∀ (k n : Nat) {text : List X} {g : GenState F X L C R}, text.length + n ≤ W → g.step + k + 1 = promptTokens.length →
    Follows K cfg mc W spl start posOffset text g →
    (generateLoop K cfg mc tok smp callback promptTokens posOffset n g).emitted =
      decodeText K cfg mc tok smp callback start (n - k) (text ++ (promptTokens.drop g.step).map K.embedToken)
        (promptTokens.length - 1) (if k = 0 then g.prevToken else promptTokens.getD (promptTokens.length - 1) 0) g.emitted
  | k, n, text, g, hroom, hstep, h => by
    have hlt : g.step < promptTokens.length := by omega
    have htoken : g.token promptTokens = promptTokens[g.step] := by
      unfold GenState.token
      rw [if_pos hlt, List.getElem_eq_getD 0]
    have htok : InVocab cfg (g.token promptTokens) := by
      rw [htoken]
      exact hin _ (List.getElem_mem hlt)
    have hdrop : promptTokens.drop g.step = g.token promptTokens :: promptTokens.drop (g.step + 1) := by
      rw [htoken]
      exact List.drop_eq_getElem_cons hlt
    cases k with
    | zero =>
      rw [generateLoop_decodes hfits hfresh hsmp n hroom htok (by omega) h, hdrop, List.drop_of_length_le (by omega),
        show promptTokens.length - 1 = g.step by omega]
      rfl
    | succ k =>
      cases n with
      | zero =>
        rw [Nat.zero_sub]
        rfl
      | succ n =>
        push_cast at hroom
        have hgo : ∀ g' : GenState F X L C R, g'.s = (g.forward K cfg mc promptTokens posOffset).s → g'.step = g.step + 1 →
            g'.prevToken = promptTokens.getD (g.step + 1) 0 → g'.emitted = g.emitted →
            (generateLoop K cfg mc tok smp callback promptTokens posOffset n g').emitted =
              decodeText K cfg mc tok smp callback start (n - k)
                (text ++ (promptTokens.drop g.step).map K.embedToken) (promptTokens.length - 1)
                (promptTokens.getD (promptTokens.length - 1) 0) g.emitted := by
          intro g' hs hstep' hprev hout
          have hlen : ((text ++ [K.embedToken (g.token promptTokens)]).length : Int) + n ≤ W := by
            rw [List.length_append, List.length_singleton]
            push_cast
            omega
          rw [generateLoop_throughPrompt hfits hfresh hsmp hin k n hlen (by omega) (h.next hfits hfresh (by omega) htok hs hstep'), hdrop, hout,
            hstep', List.append_assoc, hprev]
          have hlast : k = 0 → g.step + 1 = promptTokens.length - 1 := by omega
          split_ifs with hk
          · rw [hlast hk]
            rfl
          · rfl
        unfold generateLoop
        rw [generateStep_within (by omega), Nat.add_sub_add_right, if_neg (Nat.succ_ne_zero k)]
        exact hgo _ rfl rfl rfl rfl

/-- Positions below the window are slots of their own, however many are pinned. -/
theorem Decoded.pin {spl' : Int} {e : Nat → X} {pos : Nat} {s : RunState F X L C R} (hpos : pos ≤ W)
    (h : Decoded K cfg mc W spl start e pos 0 s) :
    Decoded K cfg mc W spl' start e pos 0 { s with kv := { s.kv with sw := swInit W spl' } } where
  maxSeqLen := h.maxSeqLen
  sizes := SameSizes.refl _
  entries := by
    intro layer hl fam hfam L hlt hnear
    have hold := h.entries layer hl fam hfam L hlt hnear
    rw [swMapPosition_below (by omega)] at hold ⊢
    exact hold
  linear := h.linear

/-- The pieces of `generate_with_callback` in a state that has taken in the text `pre`. -/
theorem generateWithCallback_decodes {s : RunState F X L C R} {pre : List X} {prompt : List UInt8} {maxTokens : Int}
    (hfits : CacheFits cfg mc) (hfresh : FfnFresh K cfg mc) (hsmp : smp.InVocab cfg) (hW : s.maxSeqLen = W) (hmax : cfg.seqLen ≤ W)
    (hpre : s.currentPos = pre.length)
    (h : Decoded K cfg mc W spl start (textSequence K pre) pre.length 0
      { s with kv := { s.kv with sw := swInit W (promptTokens.length + s.currentPos) } })
    (henc : encodePrompt cfg tok prompt = some promptTokens) (hin : ∀ t ∈ firstText promptTokens, InVocab cfg t) :
    (generateWithCallback K cfg mc tok smp callback prompt maxTokens s).2.2 =
      decodeText K cfg mc tok smp callback start
        ((min (promptTokens.length + maxTokens) (cfg.seqLen - pre.length)).toNat - (promptTokens.length - 1))
        (pre ++ (firstText promptTokens).map K.embedToken) (promptTokens.length - 1) (firstPrevToken promptTokens) [] := by
  subst hW
  unfold generateWithCallback
  rw [henc, ← hpre]
  dsimp only
  generalize hn : (min (promptTokens.length + maxTokens) (cfg.seqLen - s.currentPos)).toNat = n
  cases n with
  | zero =>
    rw [Nat.zero_sub]
    rfl
  | succ n =>
    have hfollows : ∀ g : GenState F X L C R, g.step = 0 →
        g.s = { s with kv := { s.kv with sw := swInit s.maxSeqLen (promptTokens.length + s.currentPos) } } →
        Follows K cfg mc s.maxSeqLen spl start s.currentPos pre g := by
      intro g hstep hs
      refine ⟨?_, by rw [hstep]; omega⟩
      rw [hs]
      exact h
    have hroom : (pre.length : Int) + (n + 1 : Nat) ≤ s.maxSeqLen := by omega
    by_cases hempty : promptTokens = []
    · subst hempty
      have hzero : InVocab cfg 0 := hin 0 (List.mem_singleton.2 rfl)
      exact generateLoop_decodes hfits hfresh hsmp (n + 1) hroom hzero (Nat.zero_le _) (hfollows _ rfl rfl)
    · have hfirst : firstText promptTokens = promptTokens := if_neg hempty
      have hpos : 0 < promptTokens.length := List.length_pos_iff.2 hempty
      rw [hfirst] at hin ⊢
      refine (generateLoop_throughPrompt hfits hfresh hsmp hin (promptTokens.length - 1) (n + 1) hroom (by dsimp only; omega)
        (hfollows _ rfl rfl)).trans ?_
      dsimp only
      rw [List.drop_zero]
      congr 1
      unfold firstPrevToken
      split_ifs <;> first | rfl | omega

end

/-- What `generate_with_callback` delivers in a state at position 0, whatever its caches hold: the pieces of decoding
without caches. -/
theorem generateWithCallback_eq_decodeText {F X L C R : Type} (K : Kernels F X L C R) (cfg : Config) (mc : Option MoEConfig)
    (tok : Tokenizer) (smp : Sampling L) (callback : Nat → List UInt8 → Bool) (prompt : List UInt8) (maxTokens : Int)
    (s : RunState F X L C R) (promptTokens : List Int) (hfits : CacheFits cfg mc) (hfresh : FfnFresh K cfg mc) (hsmp : smp.InVocab cfg)
    (hmax : cfg.seqLen ≤ s.maxSeqLen) (hpos : s.currentPos = 0) (henc : encodePrompt cfg tok prompt = some promptTokens)
    (hin : ∀ t ∈ firstText promptTokens, InVocab cfg t) :
    (generateWithCallback K cfg mc tok smp callback prompt maxTokens s).2.2 =
      decodeText K cfg mc tok smp callback (linearStart s)
        ((min (promptTokens.length + maxTokens) cfg.seqLen).toNat - (promptTokens.length - 1))
        ((firstText promptTokens).map K.embedToken) (promptTokens.length - 1) (firstPrevToken promptTokens) [] := by
  have hpre : s.currentPos = (([] : List X).length : Int) := hpos
  have hstart : Decoded K cfg mc s.maxSeqLen (promptTokens.length + s.currentPos) (linearStart s) (textSequence K [])
      ([] : List X).length 0
      { s with kv := { s.kv with sw := swInit s.maxSeqLen (promptTokens.length + s.currentPos) } } := by
    apply decoded_zero
    · rfl
    · exact SameSizes.refl _
    · rfl
  rw [generateWithCallback_decodes hfits hfresh hsmp rfl hmax hpre hstart henc hin, List.length_nil, Nat.cast_zero, Int.sub_zero,
    List.nil_append]

/-- The greedy token of logits that are a number is its remainder by three. -/
def remainderSampling : Sampling Int :=
  { greedy := true
    nucleus := false
    sampleArgmax := fun logits => logits % 3
    applyTemperature := fun logits => logits
    sampleTopP := fun _ logits => logits % 3
    softmax := fun logits => logits
    pickCdf := fun _ logits => logits % 3 }

/-- A token for each byte of the text, the byte's remainder by three, and the letters `a`, `b` and `c` for the tokens. -/
def remainderTokenizer : Tokenizer :=
  { encode := fun text maxTokens => if text.length ≤ maxTokens then some (text.map fun b => (b.toNat % 3 : Nat)) else none
    decode := fun _ token => some [97 + UInt8.ofNat token.toNat]
    findId := fun _ => -1
    vocab := [[97], [98], [99]]
    chatTemplate := none
    chatTemplateApply := fun _ _ _ _ => none
    bosTokenId := -1
    eosTokenId := -1
    eosList := [] }

/-- A cache of eight slots, filled with sevens, and a window that an earlier run has left. -/
def usedState : RunState Int Int Int Int Int := ⟨5, 5, ⟨fun _ _ => 7, swInit 8 3⟩, fun _ => 0, fun _ => 0, 0, 8, none⟩

theorem generateWithCallback_eq_decodeText_three :
    (generateWithCallback sumKernels ⟨1, 2, 1, 1, 3, 8, -1, -1⟩ none remainderTokenizer remainderSampling (fun _ _ => false)
        [120, 121, 122] 2 usedState).2.2 =
      decodeText sumKernels ⟨1, 2, 1, 1, 3, 8, -1, -1⟩ none remainderTokenizer remainderSampling (fun _ _ => false)
        (linearStart usedState) 3 [0, 1, 2] 2 2 [] :=
  generateWithCallback_eq_decodeText sumKernels ⟨1, 2, 1, 1, 3, 8, -1, -1⟩ none remainderTokenizer remainderSampling
    (fun _ _ => false) [120, 121, 122] 2 usedState [0, 1, 2] (by rintro layer fam ⟨⟩; trivial) ffnFresh_dense
    (fun _ logits => ⟨Int.emod_nonneg logits (by decide), Int.emod_lt_of_pos logits (by decide)⟩) (by decide) rfl rfl
    (by decide)

end BitForge.Transformer
