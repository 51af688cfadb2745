/-
The agent loop against the generation loop. On the same prompt tokens, without a MoE configuration
and from position 0, the two loops go in lockstep as long as no tool tag is found and no token ends
the sequence: the agent loop prints such a token, the generation loop does not. They run for
`max_tokens` and for `n_prompt + max_tokens` steps. So they agree exactly when the number of steps is
the same and no token sampled within it ends the sequence.
-/
import BitForge.Agent.Positions
import BitForge.Transformer.StopLaw

namespace BitForge.Agent

open BitForge.Lib BitForge.Transformer

section

variable {F X L C R : Type} (K : Kernels F X L C R) (cfg : Config) (mc : Option MoEConfig) (tok : Transformer.Tokenizer)
variable (env : Environment) (smp : Sampling L) (promptTokens : List Int)

/-! ## Agreement -/

/-- The calls of the forward pass in an agent run. -/
def agentCalls (a : AgentState F X L C R) : List (Call L) := a.calls.map (·.toCall)

/-- The two loops agree on a run of the agent loop that has ended in `a`: the same prompt tokens with
the same BOS, the same forward calls with the same MoE configuration, the same pieces, no more than
`maxTokens` of them, and none of a token from the first end of sequence on. -/
structure LoopsAgree (prompt : List UInt8) (maxTokens : Int) (s : RunState F X L C R) (a : AgentState F X L C R) : Prop where
  bos : encodePrompt cfg tok prompt = agentPrompt cfg tok prompt
  calls : (generateWithCallback K cfg mc tok smp (fun _ _ => false) prompt maxTokens s).2.1 = agentCalls a
  moe : agentCalls a ≠ [] → mc = none
  pieces : (generateWithCallback K cfg mc tok smp (fun _ _ => false) prompt maxTokens s).2.2 = a.printed
  count : a.printed.length ≤ maxTokens.toNat
  eos : a.printed.map some = piecesOf tok (lastToken promptTokens)
    ((sampledTokens smp promptTokens.length (agentCalls a)).takeWhile fun t => ¬ EosId cfg tok t)

/-- The piece of a step completes no tag. -/
def NoTag (a : AgentState F X L C R) : Prop :=
  ∀ t, sampledToken K cfg smp promptTokens a = some t → ∀ piece, tok.decode a.prevToken t = some piece →
    (tiProcessPiece a.tagBuffer piece 4096).2 = none

/-- No tag is found in a run. -/
def NoTags : Nat → AgentState F X L C R → Prop
  | 0, _ => True
  | n + 1, a => NoTag K cfg tok smp promptTokens a ∧
      (endsRun K cfg tok smp promptTokens a = false → NoTags n (agentStep K cfg tok env smp promptTokens a).1)

/-- The loops have done the same so far, and delivered each token they have sampled. -/
structure Lockstep (g : GenState F X L C R) (a : AgentState F X L C R) : Prop where
  state : g.s = a.s
  step : g.step = a.pos
  prevToken : g.prevToken = a.prevToken
  next : g.next = a.next
  calls : g.calls = agentCalls a
  emitted : g.emitted = a.printed
  made : g.calls.length = g.step
  delivered : g.emitted.length = g.step - (promptTokens.length - 1)

/-! ## One step of both loops -/

variable {promptTokens}

theorem forward_lockstep {g : GenState F X L C R} {a : AgentState F X L C R} (h : Lockstep promptTokens g a) :
    (g.forward K cfg none promptTokens 0).s = (a.forward K cfg promptTokens).s ∧
      (g.forward K cfg none promptTokens 0).calls = agentCalls (a.forward K cfg promptTokens) ∧
      (g.forward K cfg none promptTokens 0).calls.length = g.step + 1 := by
  obtain ⟨hs, hstep, hprev, hnext, hcalls, hemitted, hmade, -⟩ := h
  have hlength : (g.forward K cfg none promptTokens 0).calls.length = g.step + 1 := by
    unfold GenState.forward
    rw [List.length_append, hmade, List.length_singleton]
  refine ⟨?_, ?_, hlength⟩
  · unfold GenState.forward AgentState.forward
    dsimp only
    rw [hs, hstep, hnext, Int.add_zero]
  · unfold GenState.forward AgentState.forward agentCalls
    dsimp only
    rw [hs, hstep, hnext, hcalls, Int.add_zero, List.map_append]
    rfl

variable {K cfg tok env smp}

theorem lockstep_prompt {g : GenState F X L C R} {a : AgentState F X L C R} (h : Lockstep promptTokens g a)
    (hin : a.pos + 1 < promptTokens.length) (callback : Nat → List UInt8 → Bool) :
    ∃ g' a', generateStep K cfg none tok smp callback promptTokens 0 g = (g', false) ∧
      agentStep K cfg tok env smp promptTokens a = (a', false) ∧ Lockstep promptTokens g' a' ∧ a'.pos = a.pos + 1 := by
  obtain ⟨hs, hcalls, hmade⟩ := forward_lockstep K cfg h
  have hgstep : (g.forward K cfg none promptTokens 0).step = a.pos := h.step
  have hgemitted : (g.forward K cfg none promptTokens 0).emitted = a.printed := h.emitted
  have hapos : (a.forward K cfg promptTokens).pos = a.pos := rfl
  have haprinted : (a.forward K cfg promptTokens).printed = a.printed := rfl
  have hdelivered := h.delivered
  rw [h.emitted, h.step] at hdelivered
  rw [h.step] at hmade
  unfold generateStep agentStep
  generalize g.forward K cfg none promptTokens 0 = g₁ at *
  generalize a.forward K cfg promptTokens = a₁ at *
  dsimp only
  rw [if_pos (by rw [hgstep]; exact hin), if_pos (by rw [hapos]; exact hin), hgstep, hapos]
  refine ⟨_, _, rfl, rfl, ⟨hs, rfl, rfl, rfl, hcalls, hgemitted.trans haprinted.symm, hmade, ?_⟩, rfl⟩
  rw [hgemitted, hdelivered]
  dsimp only
  omega

/-- The step that samples: the same token in both loops. Without a tag the agent loop prints its piece;
the generation loop delivers it unless it ends the sequence. -/
theorem lockstep_sample (htok : ∀ prev t, (tok.decode prev t).isSome) {g : GenState F X L C R}
    {a : AgentState F X L C R} (h : Lockstep promptTokens g a) (hin : ¬ a.pos + 1 < promptTokens.length)
    (htag : NoTag K cfg tok smp promptTokens a) :
    ∃ call t, t = (sampleNext smp a.pos call.logits).1 ∧
      ∃ g' gstop a' astop, generateStep K cfg none tok smp (fun _ _ => false) promptTokens 0 g = (g', gstop) ∧
        agentStep K cfg tok env smp promptTokens a = (a', astop) ∧
        agentCalls a' = agentCalls a ++ [call] ∧ a'.printed.length = a.printed.length + 1 ∧
        (isEos cfg tok t = true → gstop = true ∧ g'.emitted = g.emitted) ∧
        (isEos cfg tok t = false → gstop = false ∧ astop = false ∧ Lockstep promptTokens g' a' ∧ a'.pos = a.pos + 1) := by
  obtain ⟨hs, hcalls, hmade⟩ := forward_lockstep K cfg h
  obtain ⟨call, hcall, hlogits⟩ : ∃ call, agentCalls (a.forward K cfg promptTokens) = agentCalls a ++ [call] ∧
      call.logits = (a.forward K cfg promptTokens).s.logits :=
    ⟨_, by rw [agentCalls, agentCalls, ← List.map_singleton, ← List.map_append]; rfl, rfl⟩
  have hsample : sampledToken K cfg smp promptTokens a =
      some (sampleNext smp a.pos (a.forward K cfg promptTokens).s.logits).1 := if_neg hin
  obtain ⟨piece, hpiece⟩ :=
    Option.isSome_iff_exists.1 (htok a.prevToken (sampleNext smp a.pos (a.forward K cfg promptTokens).s.logits).1)
  have hnone := htag _ hsample piece hpiece
  have hgstep : (g.forward K cfg none promptTokens 0).step = a.pos := h.step
  have hgprev : (g.forward K cfg none promptTokens 0).prevToken = a.prevToken := h.prevToken
  have hgemitted : (g.forward K cfg none promptTokens 0).emitted = a.printed := h.emitted
  have hapos : (a.forward K cfg promptTokens).pos = a.pos := rfl
  have haprev : (a.forward K cfg promptTokens).prevToken = a.prevToken := rfl
  have haprinted : (a.forward K cfg promptTokens).printed = a.printed := rfl
  have habuffer : (a.forward K cfg promptTokens).tagBuffer = a.tagBuffer := rfl
  have hdelivered := h.delivered
  rw [h.emitted, h.step] at hdelivered
  rw [h.step] at hmade
  refine ⟨call, _, rfl, ?_⟩
  rw [hlogits, h.emitted]
  unfold generateStep agentStep
  generalize g.forward K cfg none promptTokens 0 = g₁ at *
  generalize a.forward K cfg promptTokens = a₁ at *
  clear hsample
  dsimp only
  rw [hgstep, hapos, if_neg hin, if_neg hin, hs]
  generalize sampleNext smp a.pos a₁.s.logits = r at *
  obtain ⟨t, logits⟩ := r
  dsimp only at hpiece hnone ⊢
  unfold AgentState.onToken AgentState.onPiece
  dsimp only
  rw [haprev, hpiece, hgprev, hpiece]
  dsimp only
  rw [habuffer]
  generalize tiProcessPiece a.tagBuffer piece 4096 = found at *
  obtain ⟨buffer, found⟩ := found
  obtain rfl : found = none := hnone
  dsimp only
  have heosList : isEos cfg tok t = false → tok.eosList.any (t == ·) = false := by
    intro h
    exact (Bool.or_eq_false_iff.1 h).2
  cases heos : isEos cfg tok t with
  | true =>
    rw [if_pos rfl]
    cases tok.eosList.any (t == ·) with
    | true => exact ⟨_, _, _, _, rfl, rfl, hcall, by simp [haprinted], fun _ => ⟨rfl, hgemitted⟩, nofun⟩
    | false => exact ⟨_, _, _, _, rfl, rfl, hcall, by simp [haprinted], fun _ => ⟨rfl, hgemitted⟩, nofun⟩
  | false =>
    rw [heosList heos]
    refine ⟨_, _, _, _, rfl, rfl, hcall, by simp [haprinted], nofun, fun _ => ⟨rfl, rfl, ?_, rfl⟩⟩
    refine ⟨rfl, rfl, rfl, rfl, hcalls, by simp [hgemitted, haprinted], hmade, ?_⟩
    simp only [hgemitted, Option.toList_some, List.length_append, List.length_singleton, hdelivered]
    omega

/-! ## Runs -/

theorem agentStep_printed (a : AgentState F X L C R) :
    a.printed <+: (agentStep K cfg tok env smp promptTokens a).1.printed := by
  have hpiece : ∀ (f : AgentState F X L C R) piece, f.printed <+: (f.onPiece K cfg tok env piece).printed := by
    intro f piece
    unfold AgentState.onPiece
    rcases tiProcessPiece f.tagBuffer piece 4096 with ⟨buffer, found⟩
    dsimp only
    split
    · exact List.prefix_append ..
    · split
      · exact List.prefix_refl _
      · exact List.prefix_refl _
  have htoken : ∀ (f : AgentState F X L C R) next, f.printed <+: (f.onToken K cfg tok env next).1.printed := by
    intro f next
    unfold AgentState.onToken
    cases tok.decode f.prevToken next with
    | none => dsimp only; split <;> exact List.prefix_refl _
    | some piece => dsimp only; split <;> exact hpiece f piece
  unfold agentStep
  dsimp only
  split
  · exact List.prefix_refl _
  · exact htoken { a.forward K cfg promptTokens with
      s := _
      next := _ } _

theorem agentLoop_printed (m : Nat) (a : AgentState F X L C R) :
    a.printed <+: (agentLoop K cfg tok env smp promptTokens m a).printed := by
  induction m generalizing a with
  | zero => exact List.prefix_refl _
  | succ m ih =>
    have hstep : a.printed <+: (agentStep K cfg tok env smp promptTokens a).1.printed := agentStep_printed a
    unfold agentLoop
    split
    · next h => rw [h] at hstep; exact hstep
    · next h => rw [h] at hstep; exact hstep.trans (ih _)

/-- The calls of the generation loop extend those it starts with, and some steps make a call first. -/
theorem generateLoop_calls (mc : Option MoEConfig) (callback : Nat → List UInt8 → Bool) (posOffset : Int) (m : Nat)
    (g : GenState F X L C R) :
    ∃ more, (generateLoop K cfg mc tok smp callback promptTokens posOffset m g).calls = g.calls ++ more ∧
      (0 < m → ∃ c cs, more = c :: cs ∧ c.pos = g.step + posOffset) := by
  induction m generalizing g with
  | zero => exact ⟨[], (List.append_nil _).symm, fun h => absurd h (lt_irrefl 0)⟩
  | succ m ih =>
    obtain ⟨c, hcalls, hc⟩ : ∃ c, (generateStep K cfg mc tok smp callback promptTokens posOffset g).1.calls = g.calls ++ [c] ∧
        c.pos = g.step + posOffset := by
      unfold generateStep
      dsimp only
      split_ifs <;> exact ⟨_, rfl, rfl⟩
    unfold generateLoop
    split
    · next h =>
      rw [h] at hcalls
      exact ⟨[c], hcalls, fun _ => ⟨c, [], rfl, hc⟩⟩
    · next g' h =>
      rw [h] at hcalls
      obtain ⟨more, hmore, -⟩ := ih g'
      refine ⟨c :: more, ?_, fun _ => ⟨c, more, rfl, hc⟩⟩
      rw [hmore]
      dsimp only at hcalls
      rw [hcalls, List.append_assoc]
      rfl

/-- The token of a step among those sampled. -/
theorem sampledTokens_at {L : Type} (smp : Sampling L) (nPrompt : Nat) (calls rest : List (Call L)) (call : Call L)
    (h : nPrompt - 1 ≤ calls.length) :
    (sampledTokens smp nPrompt (calls ++ call :: rest))[calls.length - (nPrompt - 1)]? =
      some (sampleNext smp calls.length call.logits).1 := by
  have hfrom : ∀ (cs : List (Call L)) k, (tokensFrom smp k (cs ++ call :: rest))[cs.length]? =
      some (sampleNext smp (k + cs.length) call.logits).1 := by
    intro cs
    induction cs with
    | nil => exact fun k => rfl
    | cons c cs ih =>
      intro k
      rw [List.cons_append, tokensFrom, List.length_cons, List.getElem?_cons_succ, ih, Nat.add_assoc, Nat.add_comm 1]
  have hdrop := hfrom (calls.drop (nPrompt - 1)) (nPrompt - 1)
  rw [List.length_drop, Nat.add_sub_cancel' h] at hdrop
  unfold sampledTokens
  rw [List.drop_append_of_le_length h]
  exact hdrop

theorem length_tokensFrom {L : Type} (smp : Sampling L) (calls : List (Call L)) (k : Nat) :
    (tokensFrom smp k calls).length = calls.length := by
  induction calls generalizing k with
  | nil => rfl
  | cons c calls ih => rw [tokensFrom, List.length_cons, List.length_cons, ih]

variable (K cfg tok env smp promptTokens) in
/-- After `m` steps of both loops: they are in lockstep, or a token has ended the sequence, and the agent
loop has printed more. -/
def RunOutcome (m : Nat) (g : GenState F X L C R) (a : AgentState F X L C R) : Prop :=
  (∃ g' a', Lockstep promptTokens g' a' ∧ a'.pos = a.pos + m ∧
    (∀ j, generateLoop K cfg none tok smp (fun _ _ => false) promptTokens 0 (m + j) g =
      generateLoop K cfg none tok smp (fun _ _ => false) promptTokens 0 j g') ∧
    ∀ j, agentLoop K cfg tok env smp promptTokens (m + j) a = agentLoop K cfg tok env smp promptTokens j a') ∨
  ((∀ j k, (generateLoop K cfg none tok smp (fun _ _ => false) promptTokens 0 (m + j) g).emitted.length <
      (agentLoop K cfg tok env smp promptTokens (m + k) a).printed.length) ∧
    ∃ i t, i < a.pos + m - (promptTokens.length - 1) ∧ isEos cfg tok t = true ∧
      ∀ k, (sampledTokens smp promptTokens.length
        (agentCalls (agentLoop K cfg tok env smp promptTokens (m + k) a)))[i]? = some t)

theorem lockstep_run (htok : ∀ prev t, (tok.decode prev t).isSome) (m : Nat) {g : GenState F X L C R}
    {a : AgentState F X L C R} (h : Lockstep promptTokens g a) (htags : NoTags K cfg tok env smp promptTokens m a) :
    RunOutcome K cfg tok env smp promptTokens m g a := by
  induction m generalizing g a with
  | zero => exact .inl ⟨g, a, h, rfl, fun j => by rw [Nat.zero_add], fun j => by rw [Nat.zero_add]⟩
  | succ m ih =>
    obtain ⟨htag, htags⟩ := htags
    have hstop := (agentStep_spec K cfg tok env smp promptTokens a).stop
    have hgen : ∀ j g₁ stop, generateStep K cfg none tok smp (fun _ _ => false) promptTokens 0 g = (g₁, stop) →
        generateLoop K cfg none tok smp (fun _ _ => false) promptTokens 0 (m + 1 + j) g =
          if stop then g₁ else generateLoop K cfg none tok smp (fun _ _ => false) promptTokens 0 (m + j) g₁ := by
      intro j g₁ stop hg
      rw [Nat.add_right_comm, generateLoop, hg]
      cases stop <;> rfl
    have hagent : ∀ j a₁ stop, agentStep K cfg tok env smp promptTokens a = (a₁, stop) →
        agentLoop K cfg tok env smp promptTokens (m + 1 + j) a =
          if stop then a₁ else agentLoop K cfg tok env smp promptTokens (m + j) a₁ := by
      intro j a₁ stop ha
      rw [Nat.add_right_comm, agentLoop, ha]
      cases stop <;> rfl
    -- both loops go on
    have hcontinue : ∀ g₁ a₁, generateStep K cfg none tok smp (fun _ _ => false) promptTokens 0 g = (g₁, false) →
        agentStep K cfg tok env smp promptTokens a = (a₁, false) → Lockstep promptTokens g₁ a₁ → a₁.pos = a.pos + 1 →
        RunOutcome K cfg tok env smp promptTokens (m + 1) g a := by
      intro g₁ a₁ hg ha hlock hpos
      rw [ha] at hstop htags
      have hnext := ih hlock (htags hstop.symm)
      unfold RunOutcome at hnext ⊢
      rw [hpos, Nat.add_assoc a.pos 1 m, Nat.add_comm 1 m] at hnext
      simp only [fun j => hgen j g₁ false hg, fun j => hagent j a₁ false ha, Bool.false_eq_true, if_false]
      exact hnext
    by_cases hin : a.pos + 1 < promptTokens.length
    · obtain ⟨g₁, a₁, hg, ha, hlock, hpos⟩ := lockstep_prompt h hin fun _ _ => false
      exact hcontinue g₁ a₁ hg ha hlock hpos
    · obtain ⟨call, t, ht, g₁, gstop, a₁, astop, hg, ha, hcalls, hprinted, heos, hgo⟩ := lockstep_sample htok h hin htag
      cases hend : isEos cfg tok t with
      | false =>
        obtain ⟨rfl, rfl, hlock, hpos⟩ := hgo hend
        exact hcontinue g₁ a₁ hg ha hlock hpos
      | true =>
        obtain ⟨rfl, hemitted⟩ := heos hend
        have hmore : ∀ k, a₁.printed <+: (agentLoop K cfg tok env smp promptTokens (m + 1 + k) a).printed ∧
            ∃ rest, agentCalls (agentLoop K cfg tok env smp promptTokens (m + 1 + k) a) = agentCalls a ++ call :: rest := by
          intro k
          rw [hagent k a₁ astop ha]
          cases astop with
          | true => exact ⟨List.prefix_refl _, [], hcalls⟩
          | false =>
            obtain ⟨more, hmore, -⟩ := agentLoop_calls K cfg tok env smp promptTokens (m + k) a₁
            refine ⟨agentLoop_printed _ _, more.map (·.toCall), ?_⟩
            rw [if_neg (by decide), agentCalls, hmore, List.map_append]
            change agentCalls a₁ ++ _ = _
            rw [hcalls, List.append_assoc]
            rfl
        have hlen : (agentCalls a).length = a.pos := by rw [← h.calls, h.made, h.step]
        right
        refine ⟨fun j k => ?_, a.pos - (promptTokens.length - 1), t, by omega, hend, fun k => ?_⟩
        · have := (hmore k).1.length_le
          rw [hgen j g₁ true hg, if_pos rfl, hemitted, h.emitted]
          omega
        · obtain ⟨rest, hrest⟩ := (hmore k).2
          rw [hrest, ht, ← hlen]
          exact sampledTokens_at smp promptTokens.length (agentCalls a) rest call (by omega)

/-! ## The exact condition -/

variable (K cfg tok env smp)

/-- The BOS that the loops choose is the same: only one source gives one, or both the same. -/
def SameBos : Prop := cfg.bosTokenId ≤ 0 ∨ tok.bosTokenId < 0 ∨ cfg.bosTokenId = tok.bosTokenId

theorem encodePrompt_eq_iff (hchat : tok.chatTemplate = none) {prompt : List UInt8}
    (hprompt : agentPrompt cfg tok prompt = some promptTokens) :
    encodePrompt cfg tok prompt = agentPrompt cfg tok prompt ↔ SameBos cfg tok := by
  unfold encodePrompt SameBos
  rw [hchat, hprompt]
  unfold agentPrompt at hprompt
  dsimp only at hprompt ⊢
  by_cases hcfg : cfg.bosTokenId > 0 <;> by_cases htok : tok.bosTokenId ≥ 0
  · have hcfg' : cfg.bosTokenId ≥ 0 := by omega
    rw [if_pos htok, if_pos htok] at hprompt
    rw [if_pos hcfg, if_pos hcfg']
    obtain ⟨ts, hts, rfl⟩ := Option.map_eq_some_iff.1 hprompt
    have hts' : tok.encode prompt (cfg.seqLen - ([cfg.bosTokenId] : List Int).length) = some ts := hts
    rw [hts', Option.map_some, Option.some.injEq, List.singleton_append, List.singleton_append, List.cons.injEq]
    constructor
    · exact fun h => .inr (.inr h.1)
    · rintro (h | h | h)
      · omega
      · omega
      · exact ⟨h, rfl⟩
  · rw [if_neg htok, if_pos hcfg] at hprompt
    rw [if_pos hcfg, hprompt]
    exact iff_of_true rfl (.inr (.inl (by omega)))
  · rw [if_pos htok] at hprompt
    rw [if_neg hcfg, if_pos htok, hprompt]
    exact iff_of_true rfl (.inl (by omega))
  · rw [if_neg htok, if_neg hcfg] at hprompt
    rw [if_neg hcfg, if_neg htok, hprompt]
    exact iff_of_true rfl (.inl (by omega))

theorem NoTags.mono {m k : Nat} {a : AgentState F X L C R} (h : NoTags K cfg tok env smp promptTokens (m + k) a) :
    NoTags K cfg tok env smp promptTokens m a := by
  induction m generalizing a with
  | zero => trivial
  | succ m ih =>
    rw [Nat.add_right_comm] at h
    exact ⟨h.1, fun hgo => ih (h.2 hgo)⟩

variable (promptTokens) in
/-- The state in which the generation loop starts. -/
def generateStart (s : RunState F X L C R) : GenState F X L C R :=
  { s := { s with kv := { s.kv with sw := Kv.swInit s.maxSeqLen (promptTokens.length + s.currentPos) } }
    step := 0
    prevToken := -1
    next := 0
    tokensGenerated := 0
    calls := []
    emitted := [] }

/-- The number of steps that the conditions of the generation loop allow. -/
def generateSteps (nPrompt : Nat) (maxTokens posOffset : Int) : Nat :=
  (min (nPrompt + maxTokens) (cfg.seqLen - posOffset)).toNat

theorem generateWithCallback_loop (mc : Option MoEConfig) {prompt : List UInt8}
    (hprompt : encodePrompt cfg tok prompt = some promptTokens) (callback : Nat → List UInt8 → Bool) (maxTokens : Int)
    (s : RunState F X L C R) :
    (generateWithCallback K cfg mc tok smp callback prompt maxTokens s).2 =
      ((generateLoop K cfg mc tok smp callback promptTokens s.currentPos
          (generateSteps cfg promptTokens.length maxTokens s.currentPos) (generateStart promptTokens s)).calls,
        (generateLoop K cfg mc tok smp callback promptTokens s.currentPos
          (generateSteps cfg promptTokens.length maxTokens s.currentPos) (generateStart promptTokens s)).emitted) := by
  unfold generateWithCallback
  rw [hprompt]
  rfl

theorem lockstep_start {s : RunState F X L C R} (hpos : s.currentPos = 0) :
    Lockstep promptTokens (generateStart promptTokens s) (agentStart promptTokens s) := by
  refine ⟨?_, rfl, rfl, rfl, rfl, rfl, rfl, (Nat.zero_sub _).symm⟩
  unfold generateStart agentStart
  dsimp only
  rw [hpos, Int.add_zero]

/-- The tokens sampled in lockstep, one for each step after the prompt. -/
theorem Lockstep.length_sampled {g : GenState F X L C R} {a : AgentState F X L C R} (h : Lockstep promptTokens g a) :
    (sampledTokens smp promptTokens.length (agentCalls a)).length = a.pos - (promptTokens.length - 1) := by
  unfold sampledTokens
  rw [length_tokensFrom, List.length_drop, ← h.calls, h.made, h.step]

/-- Where the two loops agree. -/
structure AgreeCondition (mc : Option MoEConfig) (nPrompt : Nat) (maxTokens posOffset : Int) (sampled : Nat → Int) : Prop where
  bos : SameBos cfg tok
  steps : agentSteps cfg maxTokens = generateSteps cfg nPrompt maxTokens posOffset
  start : 0 < agentSteps cfg maxTokens → mc = none ∧ posOffset = 0
  noEos : ∀ i < agentSteps cfg maxTokens - (nPrompt - 1), ¬ EosId cfg tok (sampled i)

theorem agree_of_condition (htok : ∀ prev t, (tok.decode prev t).isSome) (hchat : tok.chatTemplate = none)
    {prompt : List UInt8} (hprompt : agentPrompt cfg tok prompt = some promptTokens) {mc : Option MoEConfig}
    {maxTokens : Int} {s : RunState F X L C R} {a : AgentState F X L C R}
    (ha : agentLoop K cfg tok env smp promptTokens (agentSteps cfg maxTokens) (agentStart promptTokens s) = a)
    {sampled : Nat → Int}
    (hsampled : ∀ i t, (sampledTokens smp promptTokens.length (agentCalls a))[i]? = some t → sampled i = t)
    (htags : NoTags K cfg tok env smp promptTokens (agentSteps cfg maxTokens) (agentStart promptTokens s))
    (h : AgreeCondition cfg tok mc promptTokens.length maxTokens s.currentPos sampled) :
    LoopsAgree K cfg mc tok smp promptTokens prompt maxTokens s a := by
  obtain ⟨hbos, hsteps, hstart, hnoEos⟩ := h
  have hsame := (encodePrompt_eq_iff cfg tok hchat hprompt).2 hbos
  have hgen := generateWithCallback_loop K cfg tok smp mc (hsame.trans hprompt) (fun _ _ => false) maxTokens s
  rw [← hsteps] at hgen
  rcases Nat.eq_zero_or_pos (agentSteps cfg maxTokens) with hzero | hpos
  · rw [hzero] at ha hgen
    obtain rfl : agentStart promptTokens s = a := ha
    have hcalls : agentCalls (agentStart promptTokens s) = [] := rfl
    have hnone : sampledTokens smp promptTokens.length ([] : List (Call L)) = [] := by
      rw [sampledTokens, List.drop_nil, tokensFrom]
    refine ⟨hsame, ?_, fun h => absurd hcalls h, ?_, Nat.zero_le _, ?_⟩
    · rw [hgen, hcalls]; rfl
    · rw [hgen]; rfl
    · rw [hcalls, hnone]; rfl
  · obtain ⟨rfl, hoffset⟩ := hstart hpos
    rw [hoffset] at hgen
    have hlock : Lockstep promptTokens (generateStart promptTokens s) (agentStart promptTokens s) := lockstep_start hoffset
    rcases lockstep_run htok (agentSteps cfg maxTokens) hlock htags with ⟨g', a', hlock', hpos', hg, hagent⟩ | ⟨-, i, t, hi, heos, hat⟩
    · have ha' : a' = a := (hagent 0).symm.trans ha
      subst ha'
      have hg0 : generateLoop K cfg none tok smp (fun _ _ => false) promptTokens 0 (agentSteps cfg maxTokens)
          (generateStart promptTokens s) = g' := hg 0
      rw [hg0] at hgen
      have hlength := hlock'.length_sampled smp
      have hposN : a'.pos = agentSteps cfg maxTokens := hpos'.trans (Nat.zero_add _)
      have hdelivered := hlock'.delivered
      rw [hlock'.emitted, hlock'.step] at hdelivered
      refine ⟨hsame, ?_, fun _ => rfl, ?_, ?_, ?_⟩
      · rw [hgen]; exact hlock'.calls
      · rw [hgen]; exact hlock'.emitted
      · rw [hdelivered, hposN]
        unfold agentSteps
        omega
      · obtain ⟨hpieces, -⟩ := generateLoop_run K cfg none tok smp (fun _ _ => false) promptTokens 0 htok
          (agentSteps cfg maxTokens) (generateStart promptTokens s) rfl rfl rfl rfl
        rw [hg0, hlock'.emitted, hlock'.calls] at hpieces
        rw [hpieces]
        congr 1
        refine takeWhile_congr fun (i : Nat) t ht => ?_
        have hi : i < (sampledTokens smp promptTokens.length (agentCalls a')).length := (List.getElem?_eq_some_iff.1 ht).1
        rw [hlength, hposN] at hi
        have hno := hnoEos i hi
        rw [hsampled i t ht] at hno
        have hno' : isEos cfg tok t = false := by
          rw [Bool.eq_false_iff]
          exact fun he => hno ((eosId_iff cfg tok t).2 (.inl he))
        simp [hno, hno']
    · have hti := hat 0
      rw [Nat.add_zero, ha] at hti
      have hno := hnoEos i (by change i < 0 + _ - _ at hi; omega)
      rw [hsampled i t hti] at hno
      exact absurd ((eosId_iff cfg tok t).2 (.inl heos)) hno

theorem condition_of_agree (htok : ∀ prev t, (tok.decode prev t).isSome) (hchat : tok.chatTemplate = none)
    {prompt : List UInt8} (hprompt : agentPrompt cfg tok prompt = some promptTokens) {mc : Option MoEConfig}
    {maxTokens : Int} {s : RunState F X L C R} {a : AgentState F X L C R}
    (ha : agentLoop K cfg tok env smp promptTokens (agentSteps cfg maxTokens) (agentStart promptTokens s) = a)
    {sampled : Nat → Int}
    (hsampled : ∀ i t, (sampledTokens smp promptTokens.length (agentCalls a))[i]? = some t → sampled i = t)
    (htags : NoTags K cfg tok env smp promptTokens (agentSteps cfg maxTokens) (agentStart promptTokens s))
    (h : LoopsAgree K cfg mc tok smp promptTokens prompt maxTokens s a) :
    AgreeCondition cfg tok mc promptTokens.length maxTokens s.currentPos sampled := by
  obtain ⟨hsame, hcalls, hmoe, hpieces, hcount, heos⟩ := h
  have hgen := generateWithCallback_loop K cfg tok smp mc (hsame.trans hprompt) (fun _ _ => false) maxTokens s
  rw [hgen] at hcalls hpieces
  dsimp only at hcalls hpieces
  have hbos := (encodePrompt_eq_iff cfg tok hchat hprompt).1 hsame
  obtain ⟨more, hmore, hfirst⟩ := @generateLoop_calls F X L C R K cfg tok smp promptTokens mc (fun _ _ => false)
    s.currentPos (generateSteps cfg promptTokens.length maxTokens s.currentPos) (generateStart promptTokens s)
  rw [hcalls] at hmore
  change agentCalls a = more at hmore
  obtain ⟨amore, hamore, hafirst⟩ := agentLoop_calls K cfg tok env smp promptTokens (agentSteps cfg maxTokens)
    (agentStart promptTokens s)
  rw [ha] at hamore
  have hacalls : agentCalls a = amore.map (·.toCall) := by rw [agentCalls, hamore]; rfl
  rcases Nat.eq_zero_or_pos (agentSteps cfg maxTokens) with hzero | hpos
  · -- no step of the agent loop, so no call of the generation loop either
    have hnone : agentCalls a = [] := by
      rw [hzero] at ha
      rw [← ha]
      rfl
    have hsteps : generateSteps cfg promptTokens.length maxTokens s.currentPos = 0 := by
      by_contra hne
      obtain ⟨c, cs, hcs, -⟩ := hfirst (Nat.pos_of_ne_zero hne)
      rw [hcs, hnone] at hmore
      cases hmore
    refine ⟨hbos, hzero.trans hsteps.symm, fun h => by omega, fun i hi => by omega⟩
  · obtain ⟨c, cs, rfl, hc⟩ := hafirst hpos
    have hne : agentCalls a ≠ [] := by rw [hacalls]; exact nofun
    obtain rfl : mc = none := hmoe hne
    have hgpos : 0 < generateSteps cfg promptTokens.length maxTokens s.currentPos := by
      by_contra hz
      have hz' : generateSteps cfg promptTokens.length maxTokens s.currentPos = 0 := by omega
      rw [hz'] at hcalls
      exact hne hcalls.symm
    obtain ⟨c', cs', rfl, hc'⟩ := hfirst hgpos
    have hoffset : s.currentPos = 0 := by
      rw [hmore] at hacalls
      have hhead : c' = c.toCall := (List.cons.inj hacalls).1
      rw [hhead, hc] at hc'
      change (0 : Int) = 0 + s.currentPos at hc'
      omega
    rw [hoffset] at hcalls hpieces hgpos ⊢
    have hlock : Lockstep promptTokens (generateStart promptTokens s) (agentStart promptTokens s) := lockstep_start hoffset
    let m := min (agentSteps cfg maxTokens) (generateSteps cfg promptTokens.length maxTokens 0)
    obtain ⟨j, hj⟩ := Nat.exists_eq_add_of_le (Nat.min_le_left (agentSteps cfg maxTokens) (generateSteps cfg promptTokens.length maxTokens 0))
    obtain ⟨k, hk⟩ := Nat.exists_eq_add_of_le (Nat.min_le_right (agentSteps cfg maxTokens) (generateSteps cfg promptTokens.length maxTokens 0))
    change agentSteps cfg maxTokens = m + j at hj
    change generateSteps cfg promptTokens.length maxTokens 0 = m + k at hk
    have hm : m = agentSteps cfg maxTokens ∨ m = generateSteps cfg promptTokens.length maxTokens 0 := by omega
    rw [hk] at hcalls hpieces
    rw [hj] at ha htags
    rcases lockstep_run htok m hlock (htags.mono) with ⟨g', a', hlock', hpos', hg, hagent⟩ | ⟨hmoreText, -⟩
    · rw [hg] at hcalls hpieces
      rw [hagent] at ha
      -- a loop that goes on makes a call more
      have hj0 : j = 0 := by
        by_contra hj0
        obtain rfl : k = 0 := by omega
        obtain ⟨am, ham, hfirst'⟩ := agentLoop_calls K cfg tok env smp promptTokens j a'
        obtain ⟨d, ds, rfl, -⟩ := hfirst' (Nat.pos_of_ne_zero hj0)
        rw [ha] at ham
        have hlen := congrArg List.length hcalls
        rw [generateLoop, hlock'.calls, agentCalls, agentCalls, ham, List.length_map, List.length_map, List.length_append,
          List.length_cons] at hlen
        omega
      have hk0 : k = 0 := by
        by_contra hk0
        rw [hj0] at ha
        obtain rfl : a' = a := ha
        obtain ⟨gm, hgm, hfirst'⟩ := @generateLoop_calls F X L C R K cfg tok smp promptTokens none (fun _ _ => false) 0 k g'
        obtain ⟨d, ds, rfl, -⟩ := hfirst' (Nat.pos_of_ne_zero hk0)
        have hlen := congrArg List.length hcalls
        rw [hgm, hlock'.calls, List.length_append, List.length_cons] at hlen
        omega
      rw [hj0] at ha
      obtain rfl : a' = a := ha
      have hlength := hlock'.length_sampled smp
      have hposN : a'.pos = m := hpos'.trans (Nat.zero_add _)
      have hdelivered := hlock'.delivered
      rw [hlock'.emitted, hlock'.step] at hdelivered
      refine ⟨hbos, by omega, fun _ => ⟨rfl, rfl⟩, fun i hi hend => ?_⟩
      have hlt : i < (sampledTokens smp promptTokens.length (agentCalls a')).length := by omega
      have hat := List.getElem?_eq_getElem hlt
      have hcut := length_takeWhile_le (p := fun t => decide ¬ EosId cfg tok t) hat
        (by rw [← hsampled i _ hat]; simpa using hend)
      have hlen := congrArg List.length heos
      rw [List.length_map, length_piecesOf] at hlen
      omega
    · have hlt := hmoreText k j
      rw [hpieces, ha] at hlt
      exact absurd hlt (Nat.lt_irrefl _)

/-- Without a tag the two loops agree exactly when they choose the same BOS, take the same number of
steps, start without a MoE configuration at position 0, and sample no end of sequence. -/
theorem loopsAgree_iff {F X L C R : Type} (K : Kernels F X L C R) (cfg : Config) (mc : Option MoEConfig) (tok : Transformer.Tokenizer)
    (env : Environment) (smp : Sampling L) (prompt : List UInt8) (promptTokens : List Int) (maxTokens : Int)
    (s : RunState F X L C R) (a : AgentState F X L C R) (sampled : Nat → Int)
    (htok : ∀ prev t, (tok.decode prev t).isSome) (hchat : tok.chatTemplate = none)
    (hprompt : agentPrompt cfg tok prompt = some promptTokens)
    (hrun : runAgentLoop K cfg tok env smp prompt maxTokens s = some a)
    (hsampled : ∀ i t, (sampledTokens smp promptTokens.length (agentCalls a))[i]? = some t → sampled i = t)
    (htags : NoTags K cfg tok env smp promptTokens (agentSteps cfg maxTokens) (agentStart promptTokens s)) :
    LoopsAgree K cfg mc tok smp promptTokens prompt maxTokens s a ↔
      AgreeCondition cfg tok mc promptTokens.length maxTokens s.currentPos sampled := by
  unfold runAgentLoop at hrun
  rw [hprompt, Option.map_some, Option.some.injEq] at hrun
  exact ⟨condition_of_agree K cfg tok env smp htok hchat hprompt hrun hsampled htags,
    agree_of_condition K cfg tok env smp htok hchat hprompt hrun hsampled htags⟩

end

/-- A context of three positions, which the prompt and the sampled tokens fill. -/
theorem loopsAgree_iff_full_context :
    LoopsAgree noKernels { oneConfig with seqLen := 3 } none oneTokenizer (alwaysSample 0) [0] [120] 5 oneState
        (agentLoop noKernels { oneConfig with seqLen := 3 } oneTokenizer letterTool (alwaysSample 0) [0] 3
          (agentStart [0] oneState)) ↔
      AgreeCondition { oneConfig with seqLen := 3 } oneTokenizer none 1 5 oneState.currentPos fun _ => 0 :=
  loopsAgree_iff noKernels { oneConfig with seqLen := 3 } none oneTokenizer letterTool (alwaysSample 0) [120] [0] 5
    oneState _ (fun _ => 0) (fun _ _ => rfl) rfl rfl rfl
    (fun i t ht => by
      have hrun : sampledTokens (alwaysSample 0) 1 (agentCalls
          (agentLoop noKernels { oneConfig with seqLen := 3 } oneTokenizer letterTool (alwaysSample 0) [0] 3
            (agentStart [0] oneState))) = [0, 0, 0] := rfl
      change (sampledTokens (alwaysSample 0) 1 _)[i]? = some t at ht
      rw [hrun] at ht
      have hmem : t ∈ List.replicate 3 (0 : Int) := List.mem_of_getElem? ht
      exact (List.eq_of_mem_replicate hmem).symm)
    ⟨fun t ht piece hpiece => by
      obtain rfl : [97] = piece := Option.some.inj hpiece
      rfl, fun _ => ⟨fun t ht piece hpiece => by
      obtain rfl : [97] = piece := Option.some.inj hpiece
      rfl, fun _ => ⟨fun t ht piece hpiece => by
      obtain rfl : [97] = piece := Option.some.inj hpiece
      rfl, fun _ => trivial⟩⟩⟩

/-- An end of sequence sampled first: the agent loop prints it. -/
theorem agent_prints_eos :
    ¬ LoopsAgree noKernels oneConfig none oneTokenizer (alwaysSample 1) [0] [120] 2 oneState
      (agentLoop noKernels oneConfig oneTokenizer letterTool (alwaysSample 1) [0] 2 (agentStart [0] oneState)) :=
  fun h => absurd h.pieces (by decide)

end BitForge.Agent
