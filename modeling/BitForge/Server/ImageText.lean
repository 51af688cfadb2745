/-
An image and a text in one request. Once the window of the run state has been set up, the embeddings of the image take
their place in the text that is decoded. The image passes do not set it up themselves: on a state that has only been
allocated the window has no slots, each embedding replaces the one before it, and only the last one is left.
-/
import BitForge.Server.Chat
import BitForge.Transformer.DecodeText

namespace BitForge.Server

open BitForge.Lib BitForge.Kv BitForge.Transformer

section

variable {F X L C R : Type} {ctx : ApiContext F X L C R} {W spl : Int} {start : Nat → C × R}

/-! ## An image within the text -/

/-- The position of a state is for the caller. -/
theorem decoded_setPos {K : Kernels F X L C R} {cfg : Config} {mc : Option MoEConfig} {e : Nat → X} {pos k : Nat}
    {s : RunState F X L C R} (h : Decoded K cfg mc W spl start e pos k s) (p : Int) :
    Decoded K cfg mc W spl start e pos k { s with currentPos := p } :=
  ⟨h.maxSeqLen, h.sizes, h.entries, h.linear⟩

theorem decoded_setX {K : Kernels F X L C R} {cfg : Config} {mc : Option MoEConfig} {e : Nat → X} {pos k : Nat}
    {s : RunState F X L C R} (h : Decoded K cfg mc W spl start e pos k s) (x : X) :
    Decoded K cfg mc W spl start e pos k { s with x := x } :=
  ⟨h.maxSeqLen, h.sizes, h.entries, h.linear⟩

/-- The state has taken in the text, and stands behind it. -/
structure Holds (ctx : ApiContext F X L C R) (mc : Option MoEConfig) (W spl : Int) (start : Nat → C × R) (text : List X)
    (s : RunState F X L C R) : Prop where
  decoded : Decoded ctx.kernels ctx.cfg mc W spl start (textSequence ctx.kernels text) text.length 0 s
  currentPos : s.currentPos = text.length

/-- The passes over the prefix extend the text by its tokens. -/
theorem prefixForward_holds (hfits : CacheFits ctx.cfg ctx.moeCfg) (hfresh : FfnFresh ctx.kernels ctx.cfg ctx.moeCfg) : ∀ {tokens : List Int} {text : List X} {s : RunState F X L C R},
    (∀ t ∈ tokens, InVocab ctx.cfg t) → text.length + tokens.length ≤ W → Holds ctx ctx.moeCfg W spl start text s →
    Holds ctx ctx.moeCfg W spl start (text ++ tokens.map ctx.kernels.embedToken) (prefixForward ctx tokens s).1
  | [], text, s, _, _, h => by
    rw [List.map_nil, List.append_nil]
    exact h
  | t :: ts, text, s, hin, hroom, h => by
    rw [List.length_cons] at hroom
    push_cast at hroom
    have htok : InVocab ctx.cfg t := hin t List.mem_cons_self
    obtain ⟨hd, -⟩ := transformerForward_text hfits hfresh (by omega) htok h.decoded
    have hnext : Holds ctx ctx.moeCfg W spl start (text ++ [ctx.kernels.embedToken t])
        { transformerForward ctx.kernels ctx.cfg ctx.moeCfg t text.length s with currentPos := s.currentPos + 1 } := by
      refine ⟨decoded_setPos hd _, ?_⟩
      rw [List.length_append, List.length_singleton, h.currentPos]
      rfl
    have hrest := prefixForward_holds hfits hfresh (fun u hu => hin u (List.mem_cons_of_mem _ hu))
      (by rw [List.length_append, List.length_singleton]; push_cast; omega) hnext
    unfold prefixForward
    dsimp only
    rw [List.map_cons, List.append_cons, transformerForward_currentPos, h.currentPos]
    rw [h.currentPos] at hrest
    exact hrest

/-- The image passes extend the text by the embeddings that fit in the cache. -/
theorem injectVision_holds (hfits : CacheFits ctx.cfg none) : ∀ (patches : List X) {text : List X} {s : RunState F X L C R},
    text.length ≤ W → Holds ctx none W spl start text s →
    Holds ctx none W spl start (text ++ patches.take (W - text.length).toNat) (injectVisionIntoKvCache ctx patches s).1
  | [], text, s, _, h => by
    rw [List.take_nil, List.append_nil]
    exact h
  | patch :: patches, text, s, hroom, h => by
    have hmax : s.maxSeqLen = W := h.decoded.maxSeqLen
    unfold injectVisionIntoKvCache
    by_cases hfull : s.currentPos ≥ s.maxSeqLen
    · rw [h.currentPos, hmax] at hfull
      rw [if_pos (by rw [h.currentPos, hmax]; exact hfull), show (W - text.length).toNat = 0 by omega, List.take_zero,
        List.append_nil]
      exact h
    · rw [if_neg hfull]
      rw [h.currentPos, hmax] at hfull
      have hwin : WindowOk W spl text.length := windowOk (.inl (by omega))
      have hcongr := h.decoded.congr fun L hL => (textSequence_append text patch hL).symm
      obtain ⟨hd, -⟩ := transformerForward_decoded hfits ffnFresh_dense hwin (decoded_setX hcongr patch)
        (fun hneg : (0 : Int) ≤ -1 => absurd hneg (by decide)) (textSequence_last text patch).symm
      have hnext : Holds ctx none W spl start (text ++ [patch])
          { transformerForward ctx.kernels ctx.cfg none (-1) text.length { s with x := patch } with
            currentPos := s.currentPos + 1 } := by
        refine ⟨?_, ?_⟩
        · rw [List.length_append, List.length_singleton]
          exact decoded_setPos hd _
        · rw [List.length_append, List.length_singleton, h.currentPos]
          rfl
      have hlen : ((text ++ [patch]).length : Int) ≤ W := by
        rw [List.length_append, List.length_singleton]
        push_cast
        omega
      have hrest := injectVision_holds hfits patches hlen hnext
      rw [show (W - text.length).toNat = (W - (text ++ [patch]).length).toNat + 1 by
        rw [List.length_append, List.length_singleton]; push_cast; omega, List.take_succ_cons, List.append_cons]
      dsimp only
      rw [transformerForward_currentPos, h.currentPos]
      rw [h.currentPos] at hrest
      exact hrest

variable (ctx)

/-- The tokens of the prefix before the image of the message `i`. -/
def prefixTokens (r : Request X L) (i : Nat) : List Int :=
  ((visionPrefix ctx.tok (contentAt r.chat.messages i)).map Prod.snd).getD []

/-- The prefix, and the embeddings of the image that fit behind it in a cache of `W` positions. -/
def imageText (W : Int) (r : Request X L) (i : Nat) (patches : List X) : List X :=
  (prefixTokens ctx r i).map ctx.kernels.embedToken ++ patches.take (W - (prefixTokens ctx r i).length).toNat

variable {ctx}

theorem cacheFits_dense (cfg : Config) : CacheFits cfg none := by
  rintro layer fam hfam
  cases hfam
  trivial

theorem serveVision_holds {r : Request X L} {s : RunState F X L C R} {i : Nat} {patches : List X} (hmc : ctx.moeCfg = none)
    (hpos : s.currentPos = 0) (hsw : SameSizes (swInit s.maxSeqLen spl) s.kv.sw) (hvis : visionInput ctx r = some (i, patches))
    (hin : ∀ t ∈ prefixTokens ctx r i, InVocab ctx.cfg t) (hroom : (prefixTokens ctx r i).length ≤ s.maxSeqLen) :
    Holds ctx none s.maxSeqLen spl (linearStart s) (imageText ctx s.maxSeqLen r i patches) (serveVision ctx r s).1 := by
  have hfresh : Holds ctx ctx.moeCfg s.maxSeqLen spl (linearStart s) [] s := ⟨decoded_zero rfl hsw rfl _, hpos⟩
  have hfits : CacheFits ctx.cfg ctx.moeCfg := by
    rw [hmc]
    exact cacheFits_dense ctx.cfg
  have hquant : FfnFresh ctx.kernels ctx.cfg ctx.moeCfg := by
    rw [hmc]
    exact ffnFresh_dense
  have hpre := prefixForward_holds hfits hquant hin (by rw [List.length_nil]; push_cast; omega) hfresh
  rw [hmc, List.nil_append] at hpre
  have hlen : ((prefixTokens ctx r i).map ctx.kernels.embedToken).length = (prefixTokens ctx r i).length := List.length_map _
  have himage := injectVision_holds (cacheFits_dense ctx.cfg) patches (by rw [hlen]; exact hroom) hpre
  rw [hlen] at himage
  unfold serveVision
  rw [hvis]
  exact himage

end

/-! ## An image before the window is set up

`run_state_alloc` leaves a window without slots; only the text loops call `sw_init`. -/

/-- Every position is put into slot 0 of such a window, and none is attended. -/
theorem swMapPosition_unset {sw : SlidingWindow} (hsw : SameSizes (swInit 0 0) sw) {pos : Int} (hpos : 0 ≤ pos) :
    swMapPosition sw pos = 0 := by
  rw [hsw.map]
  unfold swMapPosition
  dsimp only [swInit]
  rw [if_neg (by omega)]
  exact if_pos (by omega)

theorem kvReads_unset {F : Type} {g : KvGeometry} {fam : AttnFamily} {kv : KvState F} {layer : Nat} {pos : Int}
    (hsw : SameSizes (swInit 0 0) kv.sw) (hpos : 0 ≤ pos) : kvReads g fam kv layer pos = [] := by
  have hcount : swValidCount kv.sw pos = 0 := by
    rw [hsw.count]
    exact if_pos (by dsimp only [swInit]; omega)
  unfold kvReads
  rw [hcount]
  rfl

/-- The cell is in the entry of slot 0 of none of the layers from `n` on. -/
def Beside (cfg : Config) (W : Int) (n : Nat) (k : KvArray) (a : Int) : Prop :=
  ∀ layer, n ≤ layer → layer < cfg.nLayers → ∀ r ∈ kvRegions (kvGeometry cfg none W .generic) .generic layer 0, ¬ r.Has k a

section

variable {F X L C R : Type} {K : Kernels F X L C R} {cfg : Config} {n : Nat} {pos : Int} {u v : RunState F X L C R}

/-- Two states before the layer `n` of the same pass over a window without slots: they differ at most in what the
pass is still going to replace. -/
structure Twin (cfg : Config) (n : Nat) (u v : RunState F X L C R) : Prop where
  window : SameSizes (swInit 0 0) u.kv.sw
  rest : v = { u with
    logits := v.logits
    kv := ⟨v.kv.mem, u.kv.sw⟩ }
  mem : ∀ k a, Beside cfg u.maxSeqLen n k a → v.kv.mem k a = u.kv.mem k a

theorem attentionForward_unset (hsw : SameSizes (swInit 0 0) u.kv.sw) (hpos : 0 ≤ pos) :
    attentionForward K cfg none n pos u =
      { u with
        kv := ⟨u.kv.mem.copyAll (kvRegions (kvGeometry cfg none u.maxSeqLen .generic) .generic n 0)
          (K.project .generic n pos u.x), swAdvance u.kv.sw⟩
        x := K.attend .generic n pos u.x [] } := by
  unfold attentionForward
  dsimp only [attnFamily]
  rw [kvReads_unset (by exact hsw.advance) hpos]
  unfold kvStore
  rw [swMapPosition_unset hsw hpos]

theorem Twin.layer (hpos : 0 ≤ pos) (h : Twin cfg n u v) :
    Twin cfg (n + 1) (ffnForward K cfg none n (attentionForward K cfg none n pos u))
      (ffnForward K cfg none n (attentionForward K cfg none n pos v)) := by
  obtain ⟨hsw, hrest, hmem⟩ := h
  generalize v.logits = logits at hrest
  generalize v.kv.mem = mem at hrest hmem
  subst hrest
  have hwin : SameSizes (swInit 0 0) ({ u with
      logits := logits
      kv := ⟨mem, u.kv.sw⟩ } : RunState F X L C R).kv.sw := hsw
  rw [attentionForward_unset hsw hpos, attentionForward_unset hwin hpos]
  refine ⟨hsw.advance, rfl, ?_⟩
  intro k a hbeside
  dsimp only [ffnForward] at hbeside ⊢
  apply Mem.copyAll_congr
  by_cases hhas : ∃ r ∈ kvRegions (kvGeometry cfg none u.maxSeqLen .generic) .generic n 0, r.Has k a
  · exact .inr hhas
  · left
    apply hmem
    intro layer hle hlt r hr hr'
    rcases Nat.eq_or_lt_of_le hle with rfl | hlt'
    · exact hhas ⟨r, hr, hr'⟩
    · exact hbeside layer hlt' hlt r hr hr'

theorem Twin.layers (hpos : 0 ≤ pos) (h : Twin cfg 0 u v) : ∀ n : Nat,
    Twin cfg n (layersForward K cfg none pos n u) (layersForward K cfg none pos n v)
  | 0 => h
  | n + 1 => (Twin.layers hpos h n).layer hpos

/-- After the pass the states are the same. -/
theorem Twin.pass (hpos : 0 ≤ pos) (h : Twin cfg 0 u v) :
    transformerForward K cfg none (-1) pos v = transformerForward K cfg none (-1) pos u := by
  have hl := h.layers (K := K) hpos cfg.nLayers
  obtain ⟨-, hrest, hmem⟩ := hl
  have hall : (layersForward K cfg none pos cfg.nLayers v).kv.mem = (layersForward K cfg none pos cfg.nLayers u).kv.mem := by
    funext k a
    apply hmem
    intro layer hle hlt
    omega
  rw [hall] at hrest
  unfold transformerForward
  rw [if_neg (by omega), if_neg (by omega), if_neg (by omega), if_neg (by omega)]
  dsimp only
  rw [hrest]

/-- What passes over a window without slots leave: the cells beside slot 0, and all of the state but the activation, the
logits and the position, which is `p`. -/
structure OnlySlotZero (cfg : Config) (p : Int) (u v : RunState F X L C R) : Prop where
  window : v.kv.sw = u.kv.sw
  conv : v.q35ConvState = u.q35ConvState
  recur : v.q35RecurState = u.q35RecurState
  maxSeqLen : v.maxSeqLen = u.maxSeqLen
  xbQ8k : v.xbQ8k = u.xbQ8k
  currentPos : v.currentPos = p
  mem : ∀ k a, Beside cfg u.maxSeqLen 0 k a → v.kv.mem k a = u.kv.mem k a

theorem OnlySlotZero.refl (u : RunState F X L C R) : OnlySlotZero cfg u.currentPos u u :=
  ⟨rfl, rfl, rfl, rfl, rfl, rfl, fun _ _ _ => rfl⟩

theorem OnlySlotZero.trans {p q : Int} {w : RunState F X L C R} (h : OnlySlotZero cfg p u v) (h' : OnlySlotZero cfg q v w) :
    OnlySlotZero cfg q u w where
  window := h'.window.trans h.window
  conv := h'.conv.trans h.conv
  recur := h'.recur.trans h.recur
  maxSeqLen := h'.maxSeqLen.trans h.maxSeqLen
  xbQ8k := h'.xbQ8k.trans h.xbQ8k
  currentPos := h'.currentPos
  mem k a hb := (h'.mem k a (by rw [h.maxSeqLen]; exact hb)).trans (h.mem k a hb)

theorem swAdvance_unset {sw : SlidingWindow} (hsw : SameSizes (swInit 0 0) sw) : swAdvance sw = sw := by
  have hsize : sw.windowSize = 0 := hsw.1
  have hpinned : sw.systemPromptLen = 0 := hsw.2
  unfold swAdvance
  dsimp only
  rw [if_pos (by omega)]

theorem layersForward_unset (K : Kernels F X L C R) (cfg : Config) {u : RunState F X L C R} (hsw : SameSizes (swInit 0 0) u.kv.sw) (hpos : 0 ≤ pos) : ∀ n : Nat, n ≤ cfg.nLayers →
    OnlySlotZero cfg u.currentPos u (layersForward K cfg none pos n u)
  | 0, _ => OnlySlotZero.refl u
  | n + 1, hn => by
    have ih := layersForward_unset K cfg hsw hpos n (by omega)
    refine ih.trans ?_
    have hwin : SameSizes (swInit 0 0) (layersForward K cfg none pos n u).kv.sw := by
      rw [ih.window]
      exact hsw
    change OnlySlotZero cfg _ _ (ffnForward K cfg none n (attentionForward K cfg none n pos (layersForward K cfg none pos n u)))
    rw [attentionForward_unset hwin hpos, swAdvance_unset hwin]
    refine ⟨rfl, rfl, rfl, rfl, rfl, ih.currentPos, ?_⟩
    intro k a hbeside
    exact Mem.copyAll_outside _ _ _ (hbeside n (Nat.zero_le n) hn)

theorem pass_unset (K : Kernels F X L C R) (cfg : Config) {u : RunState F X L C R} (hsw : SameSizes (swInit 0 0) u.kv.sw) (hpos : 0 ≤ pos) (x : X) (p : Int) :
    OnlySlotZero cfg p u { transformerForward K cfg none (-1) pos { u with x := x } with currentPos := p } := by
  have h := layersForward_unset K cfg (u := { u with x := x }) hsw hpos cfg.nLayers le_rfl
  unfold transformerForward
  rw [if_neg (by omega), if_neg (by omega)]
  exact ⟨h.window, h.conv, h.recur, h.maxSeqLen, h.xbQ8k, rfl, h.mem⟩

/-- Two states that differ from a third in slot 0 only are twins once they have the same activation. -/
theorem OnlySlotZero.twin {p : Int} {w : RunState F X L C R} (hsw : SameSizes (swInit 0 0) w.kv.sw)
    (h : OnlySlotZero cfg p w u) (h' : OnlySlotZero cfg p w v) (x : X) :
    Twin cfg 0 { u with x := x } { v with x := x } where
  window := by
    dsimp only
    rw [h.window]
    exact hsw
  rest := by
    dsimp only
    rw [h.window, h.conv, h.recur, h.maxSeqLen, h.xbQ8k, h.currentPos, ← h'.window, ← h'.conv, ← h'.recur, ← h'.maxSeqLen,
      ← h'.xbQ8k, ← h'.currentPos]
  mem k a hb := by
    dsimp only at hb ⊢
    rw [h.maxSeqLen] at hb
    rw [h'.mem k a hb, h.mem k a hb]

end

section

variable {F X L C R : Type} (ctx : ApiContext F X L C R)

theorem injectVision_cons (p : X) (ps : List X) (s : RunState F X L C R) :
    (injectVisionIntoKvCache ctx (p :: ps) s).1 =
      if s.currentPos ≥ s.maxSeqLen then s
      else (injectVisionIntoKvCache ctx ps
        { transformerForward ctx.kernels ctx.cfg none (-1) s.currentPos { s with x := p } with
          currentPos := s.currentPos + 1 }).1 := by
  rw [injectVisionIntoKvCache]
  split_ifs
  · rfl
  · dsimp only
    rw [transformerForward_currentPos]

theorem injectVision_concat (q : X) : ∀ (ps : List X) (s : RunState F X L C R),
    (injectVisionIntoKvCache ctx (ps ++ [q]) s).1 = (injectVisionIntoKvCache ctx [q] (injectVisionIntoKvCache ctx ps s).1).1
  | [], s => rfl
  | p :: ps, s => by
    rw [List.cons_append, injectVision_cons, injectVision_cons ctx p ps]
    by_cases hfull : s.currentPos ≥ s.maxSeqLen
    · rw [if_pos hfull, if_pos hfull, injectVision_cons, if_pos hfull]
    · rw [if_neg hfull, if_neg hfull]
      exact injectVision_concat q ps _

theorem injectVision_unset : ∀ (ps : List X) {s : RunState F X L C R}, SameSizes (swInit 0 0) s.kv.sw → 0 ≤ s.currentPos →
    s.currentPos + ps.length ≤ s.maxSeqLen →
    OnlySlotZero ctx.cfg (s.currentPos + ps.length) s (injectVisionIntoKvCache ctx ps s).1
  | [], s, _, _, _ => by
    rw [List.length_nil, Nat.cast_zero, Int.add_zero]
    exact OnlySlotZero.refl s
  | p :: ps, s, hsw, hpos, hroom => by
    rw [List.length_cons] at hroom ⊢
    push_cast at hroom ⊢
    rw [injectVision_cons, if_neg (by omega)]
    have hpass := pass_unset ctx.kernels ctx.cfg hsw hpos p (s.currentPos + 1)
    refine hpass.trans ?_
    have hrest := injectVision_unset ps (by rw [hpass.window]; exact hsw) (by rw [hpass.currentPos]; omega)
      (by rw [hpass.currentPos, hpass.maxSeqLen]; omega)
    rw [hpass.currentPos] at hrest
    rw [show s.currentPos + ((ps.length : Int) + 1) = s.currentPos + 1 + ps.length by omega]
    exact hrest

/-- On a window without slots the image passes leave the same state for all images of one length that end alike. -/
theorem injectVision_last {s : RunState F X L C R} (hsw : SameSizes (swInit 0 0) s.kv.sw) (hpos : 0 ≤ s.currentPos)
    {ps qs : List X} (hroom : s.currentPos + ps.length ≤ s.maxSeqLen) (hlen : qs.length = ps.length)
    (hlast : qs.getLast? = ps.getLast?) :
    (injectVisionIntoKvCache ctx qs s).1 = (injectVisionIntoKvCache ctx ps s).1 := by
  rcases List.eq_nil_or_concat' ps with rfl | ⟨ps, x, rfl⟩
  · rw [List.length_eq_zero_iff.1 hlen]
  · obtain ⟨qs, y, rfl⟩ : ∃ qs' y, qs = qs' ++ [y] := by
      rcases List.eq_nil_or_concat' qs with rfl | h
      · rw [List.length_append] at hlen
        cases hlen
      · exact h
    rw [List.getLast?_concat, List.getLast?_concat] at hlast
    obtain rfl := Option.some.inj hlast
    rw [List.length_append, List.length_append] at hlen
    rw [List.length_append, List.length_singleton] at hroom
    push_cast at hroom
    have hps := injectVision_unset ctx ps hsw hpos (by omega)
    have hqs := injectVision_unset ctx qs hsw hpos (by omega)
    rw [show qs.length = ps.length by omega] at hqs
    have hpass := (hps.twin hsw hqs y).pass (K := ctx.kernels) (show 0 ≤ s.currentPos + ps.length by omega)
    rw [hps.currentPos, hqs.currentPos] at hpass
    rw [injectVision_concat, injectVision_concat, injectVision_cons, injectVision_cons, hps.currentPos, hqs.currentPos, hpass,
      if_neg (by rw [hqs.maxSeqLen]; omega), if_neg (by rw [hps.maxSeqLen]; omega)]

theorem prefixForward_window : ∀ (tokens : List Int) (s : RunState F X L C R),
    SameSizes s.kv.sw (prefixForward ctx tokens s).1.kv.sw ∧ (prefixForward ctx tokens s).1.maxSeqLen = s.maxSeqLen ∧
      (prefixForward ctx tokens s).1.currentPos = s.currentPos + tokens.length
  | [], s => ⟨SameSizes.refl _, rfl, (Int.add_zero _).symm⟩
  | t :: ts, s => by
    have hframe := transformerForward_frame ctx.kernels ctx.cfg ctx.moeCfg t s.currentPos s
    obtain ⟨hsw, hmax, hpos⟩ := prefixForward_window ts
      { transformerForward ctx.kernels ctx.cfg ctx.moeCfg t s.currentPos s with
        currentPos := (transformerForward ctx.kernels ctx.cfg ctx.moeCfg t s.currentPos s).currentPos + 1 }
    unfold prefixForward
    dsimp only at hsw hmax hpos ⊢
    refine ⟨⟨hsw.1.trans hframe.sizes.1, hsw.2.trans hframe.sizes.2⟩, hmax.trans hframe.maxSeqLen, ?_⟩
    rw [hpos, hframe.currentPos, List.length_cons]
    push_cast
    omega

/-- The first image of a freshly allocated run state: of its embeddings only their number and the last one make a
difference, to the state and to all that is streamed. -/
theorem serve_image_unset (r : Request X L) (s : RunState F X L C R) (i : Nat) (patches patches' : List X)
    (hsw : SameSizes (swInit 0 0) s.kv.sw) (hpos : 0 ≤ s.currentPos) (hvis : visionInput ctx r = some (i, patches))
    (hroom : s.currentPos + (prefixTokens ctx r i).length + patches.length ≤ s.maxSeqLen)
    (hlen : patches'.length = patches.length) (hlast : patches'.getLast? = patches.getLast?) :
    (serve ctx { r with patches := some patches' } s).1 = (serve ctx r s).1 ∧
      (serve ctx { r with patches := some patches' } s).2.2 = (serve ctx r s).2.2 := by
  have hvis' : visionInput ctx { r with patches := some patches' } = some (i, patches') := by
    unfold visionInput at hvis ⊢
    split_ifs at hvis ⊢ with hconf
    dsimp only
    cases hmsg : visionMessage r.chat.messages with
    | none =>
      rw [hmsg] at hvis
      cases hvis
    | some j =>
      rw [hmsg] at hvis
      cases hp : r.patches with
      | none =>
        rw [hp] at hvis
        cases hvis
      | some ps =>
        rw [hp] at hvis
        cases hvis
        rfl
  have hstate : (serveVision ctx { r with patches := some patches' } s).1 = (serveVision ctx r s).1 := by
    obtain ⟨hwin, hmax, hcur⟩ := prefixForward_window ctx (prefixTokens ctx r i) s
    unfold serveVision
    rw [hvis, hvis']
    have hsw' : SameSizes (swInit 0 0) (prefixForward ctx (prefixTokens ctx r i) s).1.kv.sw :=
      ⟨hwin.1.trans hsw.1, hwin.2.trans hsw.2⟩
    exact injectVision_last ctx hsw' (by rw [hcur]; omega) (by rw [hcur, hmax]; exact hroom) hlen hlast
  have hmessages : messagesAfterVision ctx { r with patches := some patches' } = messagesAfterVision ctx r := by
    unfold messagesAfterVision
    rw [hvis, hvis']
  unfold serve serveText
  dsimp only
  split_ifs
  · exact ⟨rfl, rfl⟩
  · rw [hstate, hmessages]
    exact ⟨rfl, rfl⟩

end

/-- The server of a model with two layers and the tokens `a`, `b` and `c`, without a chat template. -/
def remainderServer : ApiContext Int Int Int Int Int :=
  { kernels := sumKernels
    cfg := ⟨1, 2, 1, 1, 3, 8, -1, -1⟩
    moeCfg := none
    tok := remainderTokenizer
    visionConfigured := true
    compilePrompt := fun chat => lastUserContent chat.messages }

/-- A user message `xy` with an image of three embeddings. -/
def imageRequest : Request Int Int :=
  { chat := { model := [], messages := [⟨ascii "user", some (ascii "xy"), some []⟩], maxTokens := 2 }
    patches := some [4, 5, 6]
    smp := remainderSampling
    callback := fun _ _ => false }

theorem serve_image_unset_three :
    (serve remainderServer { imageRequest with patches := some [8, 9, 6] }
        { usedState with kv := ⟨fun _ _ => 0, swInit 0 0⟩ }).2.2 =
      (serve remainderServer imageRequest { usedState with kv := ⟨fun _ _ => 0, swInit 0 0⟩ }).2.2 :=
  (serve_image_unset remainderServer imageRequest { usedState with kv := ⟨fun _ _ => 0, swInit 0 0⟩ } 0 [4, 5, 6] [8, 9, 6]
    ⟨rfl, rfl⟩ (by decide) (by decide) (by decide) rfl rfl).2

end BitForge.Server
