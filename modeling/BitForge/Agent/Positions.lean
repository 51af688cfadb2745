/-
The positions of the forward passes of an agent run. The loop takes the positions `0, 1, ..`, an
injection those from `current_pos` on, which only injections advance; so a step that injects keeps
the calls of a run in order only as the last one, with `current_pos` at the next position.
-/
import BitForge.Agent.Loop

namespace BitForge.Agent

open BitForge.Lib BitForge.Transformer

/-- The calls of a run are in order: their positions increase, and what is injected stands directly
after the call before it. -/
structure InOrder {L : Type} (calls : List (AgentCall L)) : Prop where
  increasing : calls.Pairwise fun a b => a.pos < b.pos
  adjacent : calls.IsChain fun a b => b.injected = true → b.pos = a.pos + 1

/-- Consecutive positions are in order. -/
theorem inOrder_of_range {L : Type} {calls : List (AgentCall L)} {m : Nat}
    (h : calls.map (·.pos) = (List.range m).map fun i : Nat => (i : Int)) : InOrder calls where
  increasing := by
    rw [← List.pairwise_map (R := fun a b : Int => a < b), h, List.pairwise_map]
    exact List.pairwise_lt_range.imp fun hab => by omega
  adjacent := by
    have hchain : (calls.map (·.pos)).IsChain fun a b : Int => b = a + 1 := by
      rw [h, List.isChain_map, List.isChain_range]
      intro i _
      omega
    rw [List.isChain_map] at hchain
    exact hchain.imp fun _ _ hab _ => hab

/-- The calls of an injection of `k` tokens at the positions from `c` on. -/
structure Injects {L : Type} (c : Int) (k : Nat) (inj : List (AgentCall L)) : Prop where
  pos : inj.map (·.pos) = (List.range k).map fun i : Nat => c + i
  injected : ∀ d ∈ inj, d.injected = true

theorem Injects.nil {L : Type} (c : Int) : Injects c 0 ([] : List (AgentCall L)) := ⟨rfl, fun _ h => absurd h List.not_mem_nil⟩

theorem Injects.cons {L : Type} {c : Int} {k : Nat} {inj : List (AgentCall L)} {d : AgentCall L} (hc : d.pos = c)
    (hd : d.injected = true) (h : Injects (c + 1) k inj) : Injects c (k + 1) (d :: inj) where
  pos := by
    rw [List.map_cons, hc, h.pos, List.range_succ_eq_map, List.map_cons, List.map_map]
    simp only [Nat.cast_zero, Int.add_zero, List.cons.injEq, true_and]
    apply List.map_congr_left
    intro i _
    simp only [Function.comp, Nat.succ_eq_add_one, Nat.cast_add, Nat.cast_one]
    omega
  injected := by
    intro e he
    rcases List.mem_cons.1 he with rfl | he
    · exact hd
    · exact h.injected e he

theorem Injects.head {L : Type} {c : Int} {k : Nat} {inj : List (AgentCall L)} (h : Injects c (k + 1) inj) :
    ∃ d rest, inj = d :: rest ∧ d.pos = c ∧ d.injected = true := by
  have hpos := h.pos
  cases inj with
  | nil => simp [List.range_succ_eq_map] at hpos
  | cons d rest =>
    rw [List.map_cons, List.range_succ_eq_map, List.map_cons, List.cons.injEq] at hpos
    exact ⟨d, rest, rfl, hpos.1.trans (Int.add_zero c), h.injected d (List.mem_cons_self ..)⟩

/-- Injected tokens are in order exactly when they take the positions after the last call. -/
theorem inOrder_inject_iff {L : Type} {calls inj : List (AgentCall L)} {call : AgentCall L} {p k : Nat} {c : Int}
    (hcalls : calls.map (·.pos) = (List.range p).map fun i : Nat => (i : Int)) (hcall : call.pos = p)
    (hinj : Injects c (k + 1) inj) : InOrder (calls ++ call :: inj) ↔ c = p + 1 := by
  constructor
  · rintro ⟨-, hadj⟩
    obtain ⟨d, rest, rfl, rfl, hd⟩ := hinj.head
    rw [← hcall]
    exact (List.isChain_append_cons_cons.1 hadj).2.1 hd
  · rintro rfl
    refine inOrder_of_range (m := p + 1 + (k + 1)) ?_
    have hsplit : List.range (p + 1 + (k + 1)) = List.range p ++ p :: (List.range (k + 1)).map (p + 1 + ·) := by
      rw [List.range_add, List.range_succ, List.append_assoc, List.singleton_append]
    rw [hsplit, List.map_append, List.map_append, List.map_cons, List.map_cons, hcalls, hcall, hinj.pos, List.map_map]
    rfl

/-- After an injection the loop does not find its next position free. -/
theorem not_inOrder_follow {L : Type} {calls inj rest : List (AgentCall L)} {call next : AgentCall L} {p k : Nat} {c : Int}
    (hcall : call.pos = p) (hinj : Injects c (k + 1) inj) (hnext : next.pos = p + 1) :
    ¬ InOrder (calls ++ call :: inj ++ next :: rest) := by
  rintro ⟨hinc, hadj⟩
  obtain ⟨d, tail, rfl, rfl, hd⟩ := hinj.head
  rw [List.append_assoc] at hadj
  have hadjacent : d.pos = call.pos + 1 := (List.isChain_append_cons_cons.1 hadj).2.1 hd
  have hlt : d.pos < next.pos := (List.pairwise_append.1 hinc).2.2 d (by simp) next (by simp)
  omega

section

variable {F X L C R : Type} (K : Kernels F X L C R) (cfg : Config) (tok : Transformer.Tokenizer)

/-! ## Injections -/

/-- An injection takes the positions from `current_pos` on, as far as the context reaches. -/
theorem injectTokens_spec : ∀ (ts : List Int) (s : RunState F X L C R),
    Injects s.currentPos (min ts.length (cfg.seqLen - s.currentPos).toNat) (injectTokens K cfg ts s).2 ∧
      (injectTokens K cfg ts s).1.currentPos = s.currentPos + (min ts.length (cfg.seqLen - s.currentPos).toNat : Nat)
  | [], s => by
    rw [List.length_nil, Nat.zero_min]
    exact ⟨Injects.nil _, (Int.add_zero _).symm⟩
  | t :: ts, s => by
    by_cases hfull : s.currentPos ≥ cfg.seqLen
    · have hk : min (t :: ts).length (cfg.seqLen - s.currentPos).toNat = 0 := by omega
      have hr : injectTokens K cfg (t :: ts) s = (s, []) := by rw [injectTokens, if_pos hfull]
      rw [hk, hr]
      exact ⟨Injects.nil _, (Int.add_zero _).symm⟩
    · have hk : min (t :: ts).length (cfg.seqLen - s.currentPos).toNat =
          min ts.length (cfg.seqLen - (s.currentPos + 1)).toNat + 1 := by
        rw [List.length_cons]; omega
      obtain ⟨hinj, hpos⟩ := injectTokens_spec ts
        { transformerForward K cfg none t s.currentPos s with currentPos := s.currentPos + 1 }
      rw [hk]
      simp only [injectTokens, if_neg hfull, transformerForward_currentPos]
      refine ⟨Injects.cons rfl rfl hinj, ?_⟩
      rw [hpos]
      push_cast
      omega

/-- The number of tokens that the injection of a text feeds from the position `c` on. -/
def fedCount (text : Option (List UInt8)) (c : Int) : Nat :=
  match text.bind (tok.encode · maxInject) with
  | none => 0
  | some tokens => min tokens.length (cfg.seqLen - c).toNat

theorem injectTextIntoKv_spec (text : List UInt8) (s : RunState F X L C R) :
    Injects s.currentPos (fedCount cfg tok (some text) s.currentPos) (injectTextIntoKv K cfg tok text s).2 ∧
      (injectTextIntoKv K cfg tok text s).1.currentPos = s.currentPos + fedCount cfg tok (some text) s.currentPos := by
  unfold injectTextIntoKv fedCount
  rw [Option.bind_some]
  cases tok.encode text maxInject with
  | none => exact ⟨Injects.nil _, (Int.add_zero _).symm⟩
  | some tokens => exact injectTokens_spec K cfg tokens s

/-! ## The condition of a step -/

variable (env : Environment) (smp : Sampling L) (promptTokens : List Int)

/-- The token that a step samples; none within the prompt. -/
def sampledToken (a : AgentState F X L C R) : Option Int :=
  if a.pos + 1 < promptTokens.length then none
  else some (sampleNext smp a.pos (a.forward K cfg promptTokens).s.logits).1

/-- The text that the loop injects for a decoded piece. -/
def pieceText (tagBuffer : List UInt8) (pos : Nat) (piece : List UInt8) : Option (List UInt8) :=
  (tiProcessPiece tagBuffer piece 4096).2.bind fun p => handleTag env pos p.1 p.2

/-- The number of tokens that a step injects. -/
def injectedCount (a : AgentState F X L C R) : Nat :=
  fedCount cfg tok (((sampledToken K cfg smp promptTokens a).bind (tok.decode a.prevToken)).bind
    (pieceText env a.tagBuffer a.pos)) a.s.currentPos

/-- The sampled token ends the run. -/
def endsRun (a : AgentState F X L C R) : Bool :=
  match sampledToken K cfg smp promptTokens a with
  | none => false
  | some next => tok.eosList.any (next == ·)

/-- The condition of a step that may be followed by `n` more: it injects nothing, or it is the last
one and `current_pos` is the next position. -/
def StepOk (n : Nat) (a : AgentState F X L C R) : Prop :=
  injectedCount K cfg tok env smp promptTokens a = 0 ∨
    (a.s.currentPos = a.pos + 1 ∧ (n = 0 ∨ endsRun K cfg tok smp promptTokens a = true))

/-- All steps of a run meet the condition. -/
def StepsOk : Nat → AgentState F X L C R → Prop
  | 0, _ => True
  | n + 1, a => StepOk K cfg tok env smp promptTokens n a ∧
      (endsRun K cfg tok smp promptTokens a = false → StepsOk n (agentStep K cfg tok env smp promptTokens a).1)

/-! ## What a step does -/

/-- A piece adds the calls of its injection. -/
theorem onPiece_spec (f : AgentState F X L C R) (piece : List UInt8) :
    let k := fedCount cfg tok (pieceText env f.tagBuffer f.pos piece) f.s.currentPos
    (f.onPiece K cfg tok env piece).pos = f.pos ∧
      (f.onPiece K cfg tok env piece).s.currentPos = f.s.currentPos + k ∧
      ∃ inj, (f.onPiece K cfg tok env piece).calls = f.calls ++ inj ∧ Injects f.s.currentPos k inj := by
  unfold AgentState.onPiece pieceText
  rcases tiProcessPiece f.tagBuffer piece 4096 with ⟨buffer, found⟩
  cases found with
  | none => exact ⟨rfl, (Int.add_zero _).symm, [], (List.append_nil _).symm, Injects.nil _⟩
  | some p =>
    obtain ⟨tag, tagBuf⟩ := p
    dsimp only [Option.bind_some]
    cases handleTag env f.pos tag tagBuf with
    | none => exact ⟨rfl, (Int.add_zero _).symm, [], (List.append_nil _).symm, Injects.nil _⟩
    | some text =>
      obtain ⟨hinj, hpos⟩ := injectTextIntoKv_spec K cfg tok text f.s
      exact ⟨rfl, hpos, _, rfl, hinj⟩

/-- After its forward pass a step injects, and breaks at an end-of-sequence token. -/
theorem onToken_spec (f : AgentState F X L C R) (next : Int) :
    let k := fedCount cfg tok ((tok.decode f.prevToken next).bind (pieceText env f.tagBuffer f.pos)) f.s.currentPos
    let r := f.onToken K cfg tok env next
    r.2 = tok.eosList.any (next == ·) ∧ (r.2 = false → r.1.pos = f.pos + 1) ∧
      r.1.s.currentPos = f.s.currentPos + k ∧ ∃ inj, r.1.calls = f.calls ++ inj ∧ Injects f.s.currentPos k inj := by
  unfold AgentState.onToken
  dsimp only
  cases tok.decode f.prevToken next with
  | none =>
    dsimp only [Option.bind_none]
    have hnil : Injects f.s.currentPos 0 ([] : List (AgentCall L)) := Injects.nil _
    split <;> rename_i he
    · exact ⟨he.symm, nofun, (Int.add_zero _).symm, [], (List.append_nil _).symm, hnil⟩
    · exact ⟨(Bool.eq_false_iff.2 he).symm, fun _ => rfl, (Int.add_zero _).symm, [], (List.append_nil _).symm, hnil⟩
  | some piece =>
    dsimp only [Option.bind_some]
    obtain ⟨hpos, hcur, hcalls⟩ := onPiece_spec K cfg tok env f piece
    split <;> rename_i he
    · exact ⟨he.symm, nofun, hcur, hcalls⟩
    · exact ⟨(Bool.eq_false_iff.2 he).symm, fun _ => congrArg (· + 1) hpos, hcur, hcalls⟩

/-- A step makes one call at the position of the loop, and then those of its injection. -/
structure StepSpec (a : AgentState F X L C R) (r : AgentState F X L C R × Bool) : Prop where
  stop : r.2 = endsRun K cfg tok smp promptTokens a
  next : r.2 = false → r.1.pos = a.pos + 1
  currentPos : r.1.s.currentPos = a.s.currentPos + injectedCount K cfg tok env smp promptTokens a
  calls : ∃ c inj, r.1.calls = a.calls ++ c :: inj ∧ c.pos = (a.pos : Int) ∧
    Injects a.s.currentPos (injectedCount K cfg tok env smp promptTokens a) inj

theorem agentStep_spec (a : AgentState F X L C R) :
    StepSpec K cfg tok env smp promptTokens a (agentStep K cfg tok env smp promptTokens a) := by
  have hcur : (a.forward K cfg promptTokens).s.currentPos = a.s.currentPos := transformerForward_currentPos ..
  have hpos : (a.forward K cfg promptTokens).pos = a.pos := rfl
  by_cases hin : a.pos + 1 < promptTokens.length
  · have hsample : sampledToken K cfg smp promptTokens a = none := if_pos hin
    have hcount : injectedCount K cfg tok env smp promptTokens a = 0 := by
      unfold injectedCount; rw [hsample]; rfl
    unfold agentStep
    dsimp only
    rw [hpos, if_pos hin]
    refine ⟨?_, fun _ => rfl, ?_, _, [], rfl, rfl, ?_⟩
    · unfold endsRun; rw [hsample]
    · rw [hcount, hcur]; exact (Int.add_zero _).symm
    · rw [hcount]; exact Injects.nil _
  · have hsample : sampledToken K cfg smp promptTokens a =
        some (sampleNext smp a.pos (a.forward K cfg promptTokens).s.logits).1 := if_neg hin
    unfold agentStep
    dsimp only
    rw [hpos, if_neg hin]
    obtain ⟨hstop, hnext, hc, inj, hcalls, hinj⟩ := onToken_spec K cfg tok env
      { a.forward K cfg promptTokens with
        s := { (a.forward K cfg promptTokens).s with
          logits := (sampleNext smp a.pos (a.forward K cfg promptTokens).s.logits).2 }
        next := (sampleNext smp a.pos (a.forward K cfg promptTokens).s.logits).1 }
      (sampleNext smp a.pos (a.forward K cfg promptTokens).s.logits).1
    dsimp only at hstop hnext hc hcalls hinj
    refine ⟨?_, hnext, ?_, _, inj, hcalls.trans (List.append_assoc _ _ _), rfl, ?_⟩
    · unfold endsRun; rw [hsample]; exact hstop
    · unfold injectedCount; rw [hsample, ← hcur]; exact hc
    · unfold injectedCount; rw [hsample, ← hcur]; exact hinj

/-! ## Runs -/

/-- Before each step of a run in order: the loop has made its calls, and nothing else. -/
def LoopOnly (a : AgentState F X L C R) : Prop := a.calls.map (·.pos) = (List.range a.pos).map fun i : Nat => (i : Int)

/-- The calls of a run extend those it starts with, and a run of some steps makes a call first. -/
theorem agentLoop_calls : ∀ (n : Nat) (a : AgentState F X L C R),
    ∃ more, (agentLoop K cfg tok env smp promptTokens n a).calls = a.calls ++ more ∧
      (0 < n → ∃ c cs, more = c :: cs ∧ c.pos = (a.pos : Int))
  | 0, a => ⟨[], (List.append_nil _).symm, fun h => absurd h (lt_irrefl 0)⟩
  | n + 1, a => by
    obtain ⟨-, -, -, c, inj, hcalls, hc, -⟩ := agentStep_spec K cfg tok env smp promptTokens a
    unfold agentLoop
    rcases hstep : agentStep K cfg tok env smp promptTokens a with ⟨b, brk⟩
    rw [hstep] at hcalls
    cases brk with
    | true => exact ⟨_, hcalls, fun _ => ⟨c, inj, rfl, hc⟩⟩
    | false =>
      obtain ⟨more, hmore, -⟩ := agentLoop_calls n b
      refine ⟨c :: inj ++ more, ?_, fun _ => ⟨c, inj ++ more, rfl, hc⟩⟩
      dsimp only
      rw [hmore, hcalls, List.append_assoc]

theorem agentLoop_inOrder_iff : ∀ (n : Nat) (a : AgentState F X L C R), LoopOnly a →
    (InOrder (agentLoop K cfg tok env smp promptTokens n a).calls ↔ StepsOk K cfg tok env smp promptTokens n a)
  | 0, a, ha => ⟨fun _ => trivial, fun _ => inOrder_of_range ha⟩
  | n + 1, a, ha => by
    obtain ⟨hstop, hnext, hcur, c, inj, hcalls, hc, hinj⟩ := agentStep_spec K cfg tok env smp promptTokens a
    unfold StepsOk StepOk
    unfold agentLoop
    rcases hstep : agentStep K cfg tok env smp promptTokens a with ⟨b, brk⟩
    rw [hstep] at hstop hnext hcur hcalls
    dsimp only at hstop hnext hcur hcalls
    rw [← hstop]
    generalize injectedCount K cfg tok env smp promptTokens a = k at hcur hinj ⊢
    cases k with
    | zero =>
      -- nothing is injected, so the loop goes on from its own calls only
      obtain rfl : inj = [] := List.map_eq_nil_iff.1 hinj.pos
      have hrange : b.calls.map (·.pos) = (List.range (a.pos + 1)).map fun i : Nat => (i : Int) := by
        rw [hcalls, List.map_append, ha, List.range_succ, List.map_append, List.map_singleton, List.map_singleton, hc]
      cases brk with
      | true => exact ⟨fun _ => ⟨.inl rfl, nofun⟩, fun _ => inOrder_of_range hrange⟩
      | false =>
        have hb : LoopOnly b := by unfold LoopOnly; rw [hnext rfl]; exact hrange
        have ih := agentLoop_inOrder_iff n b hb
        exact ⟨fun h => ⟨.inl rfl, fun _ => ih.1 h⟩, fun h => ih.2 (h.2 rfl)⟩
    | succ k =>
      have hlast := inOrder_inject_iff ha hc hinj
      rw [← hcalls] at hlast
      cases brk with
      | true =>
        exact ⟨fun h => ⟨.inr ⟨hlast.1 h, .inr rfl⟩, nofun⟩, fun h => hlast.2 (h.1.resolve_left nofun).1⟩
      | false =>
        cases n with
        | zero =>
          exact ⟨fun h => ⟨.inr ⟨hlast.1 h, .inl rfl⟩, fun _ => trivial⟩, fun h => hlast.2 (h.1.resolve_left nofun).1⟩
        | succ n =>
          constructor
          · intro h
            obtain ⟨more, hmore, hfirst⟩ := agentLoop_calls K cfg tok env smp promptTokens (n + 1) b
            obtain ⟨d, rest, rfl, hd⟩ := hfirst (Nat.succ_pos n)
            rw [hnext rfl] at hd
            dsimp only at h
            rw [hmore, hcalls] at h
            exact absurd h (not_inOrder_follow hc hinj hd)
          · rintro ⟨hok, -⟩
            obtain ⟨-, hbad | hbad⟩ := hok.resolve_left nofun
            · exact absurd hbad (Nat.succ_ne_zero n)
            · exact absurd hbad nofun

/-- The calls of `run_agent_loop` are in order exactly when all its steps meet the condition. -/
theorem runAgentLoop_inOrder_iff {F X L C R : Type} (K : Kernels F X L C R) (cfg : Config) (tok : Transformer.Tokenizer)
    (env : Environment) (smp : Sampling L) (prompt : List UInt8) (maxTokens : Int) (s : RunState F X L C R) :
    (∀ a, runAgentLoop K cfg tok env smp prompt maxTokens s = some a → InOrder a.calls) ↔
      ∀ promptTokens, agentPrompt cfg tok prompt = some promptTokens →
        StepsOk K cfg tok env smp promptTokens (agentSteps cfg maxTokens) (agentStart promptTokens s) := by
  unfold runAgentLoop
  cases agentPrompt cfg tok prompt with
  | none => exact ⟨fun _ => nofun, fun _ => nofun⟩
  | some promptTokens =>
    have hiff := agentLoop_inOrder_iff K cfg tok env smp promptTokens (agentSteps cfg maxTokens)
      (agentStart promptTokens s) rfl
    constructor
    · rintro h _ ⟨⟩
      exact hiff.1 (h _ rfl)
    · rintro h _ ⟨⟩
      exact hiff.2 (h _ rfl)

end

/-! ## A run out of order -/

/-- Kernels without floats. -/
def unitKernels : Kernels Unit Unit Unit Unit Unit :=
  { embedToken := fun _ => ()
    project := fun _ _ _ _ _ _ => ()
    attend := fun _ _ _ _ _ => ()
    linearAttn := fun _ _ _ _ => ((), (), ())
    ffn := fun _ _ _ _ => ()
    finalNorm := fun _ => ()
    classify := fun _ => () }

/-- A vocabulary of three tokens: a letter, a tool call, the end of the sequence. -/
def letterTokenizer : Transformer.Tokenizer :=
  let vocab := [ascii "a", ascii "<exec>ls</exec>", ascii "</s>"]
  { encode := fun text maxTokens => if text.length ≤ maxTokens then some (text.map fun _ => 0) else none
    decode := fun _ token => vocab[token.toNat]?
    findId := fun text => if vocab.contains text then vocab.idxOf text else -1
    vocab := vocab
    chatTemplate := none
    chatTemplateApply := fun _ _ _ _ => none
    bosTokenId := -1
    eosTokenId := 2
    eosList := [2] }

/-- The sampled tokens of a run: the tool call, then the end. -/
def toolCallSampling : Sampling Unit :=
  { greedy := false
    nucleus := false
    sampleArgmax := fun _ => 0
    applyTemperature := id
    sampleTopP := fun _ _ => 0
    softmax := id
    pickCdf := fun step _ => if step = 0 then 1 else 2 }

/-- A user who approves a command that prints one letter. -/
def letterTool : Environment :=
  { approval := fun _ _ => true
    execute := fun _ _ => some (ascii "a", 1)
    ragEnabled := false
    autoSaveMemory := fun _ _ => -1
    memorySearch := fun _ _ => (0, []) }

/-- The output of the tool is injected at the position of the prompt. -/
theorem inject_over_prompt :
    ∃ a, runAgentLoop unitKernels ⟨1, 1, 1, 1, 3, 8, -1, -1⟩ letterTokenizer letterTool toolCallSampling (ascii "a") 4
        ⟨(), (), ⟨fun _ _ => (), Kv.swInit 8 0⟩, fun _ => (), fun _ => (), 0, 8, none⟩ = some a ∧
      a.calls.map (fun c => (c.pos, c.injected)) = [(0, false), (0, true), (1, false)] ∧ ¬ InOrder a.calls := by
  refine ⟨_, rfl, by decide, ?_⟩
  rintro ⟨hinc, -⟩
  rw [← List.pairwise_map (R := fun a b : Int => a < b)] at hinc
  exact absurd hinc (by decide)

end BitForge.Agent
