/-
Two runs of the generation loop from different states. A forward pass reads of the caches only the
entries of the positions up to its own; so two states that treat the positions alike and hold the
same entries for those already processed make the same calls from then on, whatever else they
hold. Linear-attention layers are left out: their state is not an entry of a position.
-/
import BitForge.Transformer.Generate

namespace BitForge.Transformer

open BitForge.Lib BitForge.Kv

/-- Two windows treat the positions below `N` alike. -/
def SameWindow (N : Int) (sw sw' : SlidingWindow) : Prop :=
  ∀ p, 0 ≤ p → p < N → swMapPosition sw' p = swMapPosition sw p ∧ swValidCount sw' p = swValidCount sw p

theorem SameWindow.advance {N : Int} {sw sw' : SlidingWindow} (h : SameWindow N sw sw') :
    SameWindow N (swAdvance sw) (swAdvance sw') := by
  intro p h0 h1
  obtain ⟨hmap, hcount⟩ := h p h0 h1
  have ha := (SameSizes.refl sw).advance
  have ha' := (SameSizes.refl sw').advance
  rw [ha.map, ha'.map, ha.count, ha'.count]
  exact ⟨hmap, hcount⟩

/-- The history of a position consists of positions up to it. -/
theorem histLogical_mem {sw : SlidingWindow} {pos t : Int} (ht0 : 0 ≤ t) (ht : t < swValidCount sw pos) :
    0 ≤ histLogical sw pos t ∧ histLogical sw pos t ≤ pos := by
  unfold histLogical
  unfold swValidCount at *
  dsimp only at *
  split_ifs at * <;> omega

/-- The states agree within the pass of `n`, after its first `k` layers: on what the loops read of
the state, and on the entries of all positions stored. -/
structure Agree {F X L C R : Type} (cfg : Config) (mc : Option MoEConfig) (N n : Int) (k : Nat)
    (s s' : RunState F X L C R) : Prop where
  currentPos : s'.currentPos = s.currentPos
  maxSeqLen : s'.maxSeqLen = s.maxSeqLen
  window : SameWindow N s.kv.sw s'.kv.sw
  entries : ∀ layer < cfg.nLayers, ∀ fam, attnFamily mc layer = some fam →
    ∀ p, 0 ≤ p → p < n ∨ (p = n ∧ layer < k) →
      ∀ r ∈ kvRegions (kvGeometry cfg mc s.maxSeqLen fam) fam layer (swMapPosition s.kv.sw p),
        Mem.AgreeOn s.kv.mem s'.kv.mem r

section

variable {F X L C R : Type} (K : Kernels F X L C R) {cfg : Config} {mc : Option MoEConfig} {N n : Int}
  {s s' : RunState F X L C R}

/-! ## One forward pass -/

/-- The entries that the history loops read are those of positions stored. -/
theorem kvReads_congr {g : KvGeometry} {fam : AttnFamily} {kv kv' : KvState F} {layer : Nat} (hn : n < N)
    (hw : SameWindow N kv.sw kv'.sw)
    (he : ∀ p, 0 ≤ p → p ≤ n → ∀ r ∈ kvRegions g fam layer (swMapPosition kv.sw p), Mem.AgreeOn kv.mem kv'.mem r)
    (hn0 : 0 ≤ n) : kvReads g fam kv' layer n = kvReads g fam kv layer n := by
  have hcount : swValidCount kv'.sw n = swValidCount kv.sw n := (hw n hn0 hn).2
  unfold kvReads
  rw [hcount]
  apply List.map_congr_left
  intro t ht
  have hlt : (t : Int) < swValidCount kv.sw n := by have := List.mem_range.1 ht; omega
  obtain ⟨hL, hle⟩ := histLogical_mem (Int.natCast_nonneg t) hlt
  have hhist : histLogical kv'.sw n t = histLogical kv.sw n t := by unfold histLogical; rw [hcount]
  unfold kvRead
  dsimp only
  rw [hhist, (hw _ hL (by omega)).1]
  exact (Mem.slices_congr (he _ hL hle)).symm

theorem attentionForward_agree {layer : Nat} {fam : AttnFamily} (hfam : attnFamily mc layer = some fam)
    (hl : layer < cfg.nLayers) (hn0 : 0 ≤ n) (hn : n < N) (h : Agree cfg mc N n layer s s') (hx : s'.x = s.x) :
    Agree cfg mc N n (layer + 1) (attentionForward K cfg mc layer n s) (attentionForward K cfg mc layer n s') ∧
      (attentionForward K cfg mc layer n s').x = (attentionForward K cfg mc layer n s).x := by
  have hmap : swMapPosition s'.kv.sw n = swMapPosition s.kv.sw n := (h.window n hn0 hn).1
  have hadv := (SameSizes.refl s.kv.sw).advance
  have hentries : ∀ layer' < cfg.nLayers, ∀ fam', attnFamily mc layer' = some fam' →
      ∀ p, 0 ≤ p → p < n ∨ (p = n ∧ layer' < layer + 1) →
        ∀ r ∈ kvRegions (kvGeometry cfg mc s.maxSeqLen fam') fam' layer' (swMapPosition s.kv.sw p),
          Mem.AgreeOn
            (s.kv.mem.copyAll (kvRegions (kvGeometry cfg mc s.maxSeqLen fam) fam layer (swMapPosition s.kv.sw n))
              (K.project fam layer n s.x))
            (s'.kv.mem.copyAll (kvRegions (kvGeometry cfg mc s.maxSeqLen fam) fam layer (swMapPosition s.kv.sw n))
              (K.project fam layer n s.x)) r := by
    intro layer' hl' fam' hfam' p hp0 hp r hr
    apply Mem.AgreeOn.copyAll
    by_cases hself : p = n ∧ layer' = layer
    · obtain ⟨rfl, rfl⟩ := hself
      cases hfam.symm.trans hfam'
      exact .inr hr
    · exact .inl (h.entries layer' hl' fam' hfam' p hp0 (by omega) r hr)
  unfold attentionForward
  rw [hfam]
  dsimp only
  rw [h.maxSeqLen, hx]
  have hkv' : kvStore (kvGeometry cfg mc s.maxSeqLen fam) fam s'.kv layer n (K.project fam layer n s.x) =
      ⟨s'.kv.mem.copyAll (kvRegions (kvGeometry cfg mc s.maxSeqLen fam) fam layer (swMapPosition s.kv.sw n))
        (K.project fam layer n s.x), swAdvance s'.kv.sw⟩ := by
    unfold kvStore; rw [hmap]
  refine ⟨⟨h.currentPos, rfl, ?_, ?_⟩, ?_⟩
  · exact h.window.advance
  · intro layer' hl' fam' hfam' p hp0 hp r hr
    rw [hkv']
    dsimp only [kvStore] at hr ⊢
    rw [hadv.map] at hr
    exact hentries layer' hl' fam' hfam' p hp0 hp r hr
  · have hreads : kvReads (kvGeometry cfg mc s.maxSeqLen fam) fam
        (kvStore (kvGeometry cfg mc s.maxSeqLen fam) fam s'.kv layer n (K.project fam layer n s.x)) layer n =
        kvReads (kvGeometry cfg mc s.maxSeqLen fam) fam
          (kvStore (kvGeometry cfg mc s.maxSeqLen fam) fam s.kv layer n (K.project fam layer n s.x)) layer n := by
      refine kvReads_congr hn ?_ ?_ hn0
      · exact h.window.advance
      · intro p hp0 hp r hr
        rw [hkv']
        dsimp only [kvStore] at hr ⊢
        rw [hadv.map] at hr
        exact hentries layer hl fam hfam p hp0 (by omega) r hr
    rw [hreads]

/-- No layer of the model has linear attention. -/
def NoLinear (cfg : Config) (mc : Option MoEConfig) : Prop := ∀ layer < cfg.nLayers, (attnFamily mc layer).isSome

theorem layersForward_agree (hlin : NoLinear cfg mc) (hfresh : FfnFresh K cfg mc) (hn0 : 0 ≤ n) (hn : n < N) (h : Agree cfg mc N n 0 s s')
    (hx : s'.x = s.x) : ∀ k ≤ cfg.nLayers,
      Agree cfg mc N n k (layersForward K cfg mc n k s) (layersForward K cfg mc n k s') ∧
        (layersForward K cfg mc n k s').x = (layersForward K cfg mc n k s).x
  | 0, _ => ⟨h, hx⟩
  | k + 1, hk => by
    obtain ⟨ih, ihx⟩ := layersForward_agree hlin hfresh hn0 hn h hx k (by omega)
    obtain ⟨fam, hfam⟩ := Option.isSome_iff_exists.1 (hlin k hk)
    obtain ⟨ha, hax⟩ := attentionForward_agree K hfam hk hn0 hn ih ihx
    unfold layersForward
    refine ⟨?_, ?_⟩
    · rw [ffnForward_eq k (attentionForward K cfg mc k n (layersForward K cfg mc n k s)),
        ffnForward_eq k (attentionForward K cfg mc k n (layersForward K cfg mc n k s'))]
      exact ⟨ha.currentPos, ha.maxSeqLen, ha.window, ha.entries⟩
    · rw [ffnForward_x hfresh hk, ffnForward_x hfresh hk, hax]

/-- A pass over a token of the vocabulary, or over an activation that both states hold. -/
theorem transformerForward_agree (hlin : NoLinear cfg mc) (hfresh : FfnFresh K cfg mc) (hn0 : 0 ≤ n) (hn : n < N) {token : Int}
    (htok : token < cfg.vocabSize ∨ token < 0) (hx : token < 0 → s'.x = s.x) (h : Agree cfg mc N n 0 s s') :
    Agree cfg mc N (n + 1) 0 (transformerForward K cfg mc token n s) (transformerForward K cfg mc token n s') ∧
      (transformerForward K cfg mc token n s').logits = (transformerForward K cfg mc token n s).logits := by
  have hin : ¬ (0 ≤ token ∧ cfg.vocabSize ≤ token) := by omega
  unfold transformerForward
  rw [if_neg hin, if_neg hin]
  dsimp only
  generalize ht : (if 0 ≤ token then { s with x := K.embedToken token } else s) = t
  generalize ht' : (if 0 ≤ token then { s' with x := K.embedToken token } else s') = t'
  have hagree : Agree cfg mc N n 0 t t' ∧ t'.x = t.x := by
    rw [← ht, ← ht']
    split
    · exact ⟨⟨h.currentPos, h.maxSeqLen, h.window, h.entries⟩, rfl⟩
    · exact ⟨h, hx (by omega)⟩
  obtain ⟨ha, hax⟩ := layersForward_agree K hlin hfresh hn0 hn hagree.1 hagree.2 cfg.nLayers le_rfl
  refine ⟨⟨ha.currentPos, ha.maxSeqLen, ha.window, ?_⟩, ?_⟩
  · intro layer hl fam hfam p hp0 hp
    exact ha.entries layer hl fam hfam p hp0 (by omega)
  · rw [hax]

end

/-! ## The generation loop -/

def InVocab (cfg : Config) (token : Int) : Prop := 0 ≤ token ∧ token < cfg.vocabSize

instance (cfg : Config) (token : Int) : Decidable (InVocab cfg token) := inferInstanceAs (Decidable (_ ∧ _))

/-- The sampling kernels return tokens of the vocabulary. -/
def Sampling.InVocab {L : Type} (cfg : Config) (smp : Sampling L) : Prop :=
  ∀ step logits, Transformer.InVocab cfg (sampleNext smp step logits).1

section

variable {F X L C R : Type} (K : Kernels F X L C R) {cfg : Config} {mc : Option MoEConfig} (tok : Tokenizer)
  {smp : Sampling L} (callback : Nat → List UInt8 → Bool) {promptTokens : List Int} {posOffset N : Int}

/-- The states of the loop differ in the run state only, and there in nothing that is read. -/
structure GenAgree (cfg : Config) (mc : Option MoEConfig) (promptTokens : List Int) (posOffset N : Int)
    (g g' : GenState F X L C R) : Prop where
  state : Agree cfg mc N (g.step + posOffset) 0 g.s g'.s
  rest : g' = { g with s := g'.s }
  next : promptTokens.length ≤ g.step → InVocab cfg g.next

theorem generateStep_agree (hlin : NoLinear cfg mc) (hfresh : FfnFresh K cfg mc) (hsmp : smp.InVocab cfg) (hprompt : ∀ t ∈ promptTokens, InVocab cfg t)
    (hoff : 0 ≤ posOffset) {g g' : GenState F X L C R} (hN : g.step + posOffset < N)
    (h : GenAgree cfg mc promptTokens posOffset N g g') :
    let r := generateStep K cfg mc tok smp callback promptTokens posOffset g
    let r' := generateStep K cfg mc tok smp callback promptTokens posOffset g'
    r'.2 = r.2 ∧ r'.1 = { r.1 with s := r'.1.s } ∧
      (r.2 = false → r.1.step = g.step + 1 ∧ GenAgree cfg mc promptTokens posOffset N r.1 r'.1) := by
  obtain ⟨s, step, prevToken, next, tokensGenerated, calls, emitted⟩ := g
  obtain ⟨s', step', prevToken', next', tokensGenerated', calls', emitted'⟩ := g'
  obtain ⟨hstate, hrest, hnext⟩ := h
  cases hrest
  dsimp only at hstate hnext hN
  generalize htoken : (if step < promptTokens.length then promptTokens.getD step 0 else next) = token
  have htok : InVocab cfg token := by
    rw [← htoken]
    split
    · rename_i hlt
      rw [← List.getElem_eq_getD (h := hlt)]
      exact hprompt _ (List.getElem_mem hlt)
    · exact hnext (by omega)
  obtain ⟨hfwd, hlogits⟩ := transformerForward_agree K hlin hfresh (by omega) hN (.inl htok.2) (fun hneg => absurd htok.1 (by omega))
    hstate
  unfold generateStep GenState.forward
  dsimp only
  rw [htoken, hlogits]
  have hstep : (step : Int) + posOffset + 1 = (step + 1 : Nat) + posOffset := by push_cast; omega
  rw [hstep] at hfwd
  split
  · rename_i hin
    refine ⟨rfl, rfl, fun _ => ⟨rfl, hfwd, rfl, fun hle => absurd hin (Nat.not_lt.2 hle)⟩⟩
  · have hin := hsmp step (transformerForward K cfg mc token (step + posOffset) s).logits
    rcases hs : sampleNext smp step (transformerForward K cfg mc token (step + posOffset) s).logits with ⟨nextToken, logits⟩
    rw [hs] at hin
    dsimp only at hin ⊢
    have hset : Agree cfg mc N ((step + 1 : Nat) + posOffset) 0
        { transformerForward K cfg mc token (step + posOffset) s with logits := logits }
        { transformerForward K cfg mc token (step + posOffset) s' with logits := logits } :=
      ⟨hfwd.currentPos, hfwd.maxSeqLen, hfwd.window, hfwd.entries⟩
    split
    · exact ⟨rfl, rfl, nofun⟩
    · split
      · exact ⟨rfl, rfl, nofun⟩
      · exact ⟨rfl, rfl, fun _ => ⟨rfl, hset, rfl, fun _ => hin⟩⟩

theorem generateLoop_agree (hlin : NoLinear cfg mc) (hfresh : FfnFresh K cfg mc) (hsmp : smp.InVocab cfg) (hprompt : ∀ t ∈ promptTokens, InVocab cfg t)
    (hoff : 0 ≤ posOffset) : ∀ (n : Nat) {g g' : GenState F X L C R}, g.step + posOffset + n ≤ N →
      GenAgree cfg mc promptTokens posOffset N g g' →
        generateLoop K cfg mc tok smp callback promptTokens posOffset n g' =
          { generateLoop K cfg mc tok smp callback promptTokens posOffset n g with
            s := (generateLoop K cfg mc tok smp callback promptTokens posOffset n g').s }
  | 0, _, _, _, h => h.rest
  | n + 1, g, g', hN, h => by
    obtain ⟨hbrk, hrest, hcont⟩ := generateStep_agree K tok callback hlin hfresh hsmp hprompt hoff (by omega) h
    unfold generateLoop
    rcases hr : generateStep K cfg mc tok smp callback promptTokens posOffset g with ⟨t, brk⟩
    rcases hr' : generateStep K cfg mc tok smp callback promptTokens posOffset g' with ⟨t', brk'⟩
    rw [hr, hr'] at hbrk hrest hcont
    dsimp only at hbrk hrest hcont
    subst hbrk
    cases brk' with
    | true => exact hrest
    | false =>
      obtain ⟨hstep, hagree⟩ := hcont rfl
      exact generateLoop_agree hlin hfresh hsmp hprompt hoff n (by rw [hstep]; push_cast; omega) hagree

end

end BitForge.Transformer
