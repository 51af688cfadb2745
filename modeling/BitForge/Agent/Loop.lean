/-
The agent loop of `agent/agent_loop.c` and the injection of tool and memory results of
`agent/output_inject.c`. The loop counts its positions itself, the injection takes them from
`current_pos` of the run state. What the user, the tools and the memory answer is given by the
environment, for each position.
-/
import BitForge.Agent.Interceptor
import BitForge.Transformer.Generate

namespace BitForge.Agent

open BitForge.Lib BitForge.Transformer

/-- `MemoryResult`; the score is its rendering by `%.2f`. -/
structure MemoryResult where
  score : List UInt8
  text : Option (List UInt8)
deriving DecidableEq, Repr

/-- The answers at each position of the loop. -/
structure Environment where
  /-- `user_approval_prompt` -/
  approval : Nat → List UInt8 → Bool
  /-- `build_argv_from_command` and `execute_command`: the output buffer and `stdout_len`; `none`
  when the command is not parsed -/
  execute : Nat → List UInt8 → Option (List UInt8 × Int)
  /-- `rag && rag->enabled` -/
  ragEnabled : Bool
  /-- `auto_save_memory` -/
  autoSaveMemory : Nat → List UInt8 → Int
  /-- `memory_search`: its result and the entries it fills -/
  memorySearch : Nat → List UInt8 → Int × List MemoryResult

/-- The text that `handle_search_memory` injects. -/
def handleSearchMemory (env : Environment) (pos : Nat) (query : List UInt8) : List UInt8 :=
  let (n, results) := env.memorySearch pos query
  if n ≤ 0 then ascii "<result>No relevant memories found.</result>"
  else
    let size := 4096
    let buf := (FormatBuf.mk [] 0).snprintf size
      (ascii "<result>\nMemory search results for \"" ++ query ++ ascii "\":\n")
    let buf := (results.take n.toNat).foldl (fun buf r =>
      if buf.off < size - 128 then buf.snprintf size (ascii "  [" ++ r.score ++ ascii "] " ++ r.text.getD [] ++ ascii "\n")
      else buf) buf
    (buf.snprintf size (ascii "</result>")).text

/-- The text that `handle_save_memory` injects. -/
def handleSaveMemory (env : Environment) (pos : Nat) (text : List UInt8) : List UInt8 :=
  let result := env.autoSaveMemory pos text
  if result = 0 then ascii "<result>Memory saved.</result>"
  else if result = 1 then ascii "<result>Memory already known (duplicate skipped).</result>"
  else ascii "<result>Memory save failed.</result>"

/-- The text that the loop injects for a tag. -/
def handleTag (env : Environment) (pos : Nat) (tag : TITag) (tagBuf : List UInt8) : Option (List UInt8) :=
  match tag with
  | .exec =>
    if env.approval pos tagBuf then
      match env.execute pos tagBuf with
      | none => none
      | some (execOut, stdoutLen) => if stdoutLen > 0 then some execOut else none
    else none
  | .think => none
  | .saveMemory => if env.ragEnabled then some (handleSaveMemory env pos tagBuf) else none
  | .searchMemory => if env.ragEnabled then some (handleSearchMemory env pos tagBuf) else none
  | .result => none

/-- A call of the forward pass on the run state of the loop; `injected` tells the calls of
`inject_text_into_kv` from those of the loop. -/
structure AgentCall (L : Type) extends Call L where
  injected : Bool
deriving DecidableEq, Repr

/-- `MAX_INJECT`. -/
def maxInject : Int := 4096

/-- The variables of the loop, its calls, and the pieces it prints. -/
structure AgentState (F X L C R : Type) where
  s : RunState F X L C R
  pos : Nat
  prevToken : Int
  next : Int
  tagBuffer : List UInt8
  calls : List (AgentCall L)
  printed : List (List UInt8)

section

variable {F X L C R : Type} (K : Kernels F X L C R) (cfg : Config) (tok : Transformer.Tokenizer)

/-- The loop of `inject_text_into_kv` over its tokens. -/
def injectTokens : List Int → RunState F X L C R → RunState F X L C R × List (AgentCall L)
  | [], s => (s, [])
  | t :: ts, s =>
    if s.currentPos ≥ cfg.seqLen then (s, []) -- can't inject beyond sequence length
    else
      let pos := s.currentPos
      let s := transformerForward K cfg none t pos s
      let (s', calls) := injectTokens ts { s with currentPos := s.currentPos + 1 }
      (s', ⟨⟨t, pos, s.logits⟩, true⟩ :: calls)

/-- `inject_text_into_kv`. -/
def injectTextIntoKv (text : List UInt8) (s : RunState F X L C R) : RunState F X L C R × List (AgentCall L) :=
  match tok.encode text maxInject with
  | none => (s, [])
  | some tokens => injectTokens K cfg tokens s

variable (env : Environment) (smp : Sampling L) (promptTokens : List Int)

/-- The reaction to the decoded piece of a step. -/
def AgentState.onPiece (a : AgentState F X L C R) (piece : List UInt8) : AgentState F X L C R :=
  let (buffer, found) := tiProcessPiece a.tagBuffer piece 4096
  let a := { a with tagBuffer := buffer }
  match found with
  | none => { a with printed := a.printed ++ [piece] }
  | some (tag, tagBuf) =>
    match handleTag env a.pos tag tagBuf with
    | none => a
    | some text =>
      let (s, calls) := injectTextIntoKv K cfg tok text a.s
      { a with
        s := s
        calls := a.calls ++ calls }

/-- The forward pass of a step. -/
def AgentState.forward (a : AgentState F X L C R) : AgentState F X L C R :=
  let token := if a.pos < promptTokens.length then promptTokens.getD a.pos 0 else a.next
  let s := transformerForward K cfg none token a.pos a.s
  { a with
    s := s
    calls := a.calls ++ [⟨⟨token, a.pos, s.logits⟩, false⟩] }

/-- The end of a step that has sampled `next`, and whether the loop breaks. -/
def AgentState.onToken (a : AgentState F X L C R) (next : Int) : AgentState F X L C R × Bool :=
  let a := match tok.decode a.prevToken next with
    | none => a
    | some piece => a.onPiece K cfg tok env piece
  let a := { a with prevToken := next }
  if tok.eosList.any (next == ·) then (a, true) else ({ a with pos := a.pos + 1 }, false)

/-- One step of the loop, and whether it breaks. -/
def agentStep (a : AgentState F X L C R) : AgentState F X L C R × Bool :=
  let a := a.forward K cfg promptTokens
  if a.pos + 1 < promptTokens.length then
    let next := promptTokens.getD (a.pos + 1) 0
    ({ a with
      next := next
      prevToken := next
      pos := a.pos + 1 }, false)
  else
    let (next, logits) := sampleNext smp a.pos a.s.logits
    let a := { a with
      s := { a.s with logits := logits }
      next := next }
    a.onToken K cfg tok env next

/-- The loop, with a bound on its remaining steps. -/
def agentLoop : Nat → AgentState F X L C R → AgentState F X L C R
  | 0, a => a
  | n + 1, a =>
    match agentStep K cfg tok env smp promptTokens a with
    | (a, true) => a
    | (a, false) => agentLoop n a

/-- The prompt tokens of `run_agent_loop`. -/
def agentPrompt (prompt : List UInt8) : Option (List Int) :=
  let bos := if tok.bosTokenId ≥ 0 then tok.bosTokenId else if cfg.bosTokenId > 0 then cfg.bosTokenId else -1
  let start := if bos ≥ 0 then [bos] else []
  (tok.encode prompt (cfg.seqLen - start.length)).map (start ++ ·)

/-- The state in which the loop starts. -/
def agentStart (s : RunState F X L C R) : AgentState F X L C R :=
  { s := { s with kv := { s.kv with sw := Kv.swInit s.maxSeqLen promptTokens.length } }
    pos := 0
    prevToken := -1
    next := 0
    tagBuffer := []
    calls := []
    printed := [] }

/-- The number of steps that the conditions of the loop allow. -/
def agentSteps (maxTokens : Int) : Nat := (min maxTokens cfg.seqLen).toNat

end

/-- `run_agent_loop`; `none` is the result -1. -/
def runAgentLoop {F X L C R : Type} (K : Kernels F X L C R) (cfg : Config) (tok : Transformer.Tokenizer) (env : Environment)
    (smp : Sampling L) (prompt : List UInt8) (maxTokens : Int) (s : RunState F X L C R) :
    Option (AgentState F X L C R) :=
  (agentPrompt cfg tok prompt).map fun promptTokens =>
    agentLoop K cfg tok env smp promptTokens (agentSteps cfg maxTokens) (agentStart promptTokens s)

end BitForge.Agent
