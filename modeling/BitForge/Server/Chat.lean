/-
The work of `handle_chat_completions` on the run state: the vision pipeline for an uploaded image
(`multimodal/vision_pipeline.c`, `multimodal/vision_bridge.c`), the choice of the prompt, and the
generation. A request comes with what the environment fixes for it: the embeddings that encoder and
projector make of its image, its random numbers, and when the stream asks to stop.
-/
import BitForge.Lib.CString
import BitForge.Transformer.Generate

namespace BitForge.Server

open BitForge.Lib BitForge.Transformer

/-- `ChatMessage`. -/
structure Message where
  role : List UInt8
  content : Option (List UInt8)
  imageDataUrl : Option (List UInt8)
deriving DecidableEq, Repr

/-- `ChatRequest`; temperature and top_p are in `Sampling`. -/
structure ChatRequest where
  model : List UInt8
  messages : List Message
  maxTokens : Int
deriving DecidableEq, Repr

/-- `ApiContext`. -/
structure ApiContext (F X L C R : Type) where
  kernels : Kernels F X L C R
  cfg : Config
  moeCfg : Option MoEConfig
  tok : Transformer.Tokenizer
  /-- `server_config.vision_path` and `server_config.proj_path` are set -/
  visionConfigured : Bool
  /-- `chat_template_detect` and `chat_compile_prompt`; `none` is an error -/
  compilePrompt : ChatRequest → Option (List UInt8)

structure Request (X L : Type) where
  chat : ChatRequest
  /-- the patch embeddings of the image; `none` when decoding, the temporary file or loading fails -/
  patches : Option (List X)
  smp : Sampling L
  callback : Nat → List UInt8 → Bool

/-- The last user message with an image. -/
def visionMessage (messages : List Message) : Option Nat :=
  (List.range messages.length).reverse.find? fun i =>
    match messages[i]? with
    | some m => m.role = ascii "user" ∧ m.imageDataUrl.isSome
    | none => false

/-- The text of the chat prefix of `vision_pipeline_run` and its tokens, for ChatML templates. -/
def visionPrefix (tok : Transformer.Tokenizer) (promptText : Option (List UInt8)) : Option (List UInt8 × List Int) := do
  let _ ← promptText
  let template ← tok.chatTemplate
  let _ ← strstr template (ascii "im_start")
  let imStartId := tok.findId (ascii "<|im_start|>")
  let text := if imStartId ≥ 0 then ascii "<|im_start|>User: " else ascii "User: "
  let tokens ← tok.encode text 32
  if tokens.length > 0 then some (text, tokens) else none

/-- The prompt text without the prefix, as it fits in `stripped_prompt_buf`. -/
def strippedPrompt (pre promptText : List UInt8) : List UInt8 :=
  (if pre.isPrefixOf promptText then promptText.drop pre.length else promptText).take (8192 - 1)

section

variable {F X L C R : Type} (ctx : ApiContext F X L C R)

/-- The passes over the tokens of the prefix. -/
def prefixForward : List Int → RunState F X L C R → RunState F X L C R × List (Call L)
  | [], s => (s, [])
  | t :: ts, s =>
    let pos := s.currentPos
    let s := transformerForward ctx.kernels ctx.cfg ctx.moeCfg t pos s
    let (s', calls) := prefixForward ts { s with currentPos := s.currentPos + 1 }
    (s', ⟨t, pos, s.logits⟩ :: calls)

/-- `inject_vision_into_kv_cache`: it passes no `MoEConfig`. -/
def injectVisionIntoKvCache : List X → RunState F X L C R → RunState F X L C R × List (Call L)
  | [], s => (s, [])
  | patch :: patches, s =>
    if s.currentPos ≥ s.maxSeqLen then (s, []) -- KV cache full
    else
      let pos := s.currentPos
      let s := transformerForward ctx.kernels ctx.cfg none (-1) pos { s with x := patch }
      let (s', calls) := injectVisionIntoKvCache patches { s with currentPos := s.currentPos + 1 }
      (s', ⟨-1, pos, s.logits⟩ :: calls)

/-- The passes of `vision_pipeline_run`. -/
def visionPipelineRun (promptText : Option (List UInt8)) (patches : List X) (s : RunState F X L C R) :
    RunState F X L C R × List (Call L) :=
  let (s, preCalls) := prefixForward ctx (((visionPrefix ctx.tok promptText).map Prod.snd).getD []) s
  let (s, calls) := injectVisionIntoKvCache ctx patches s
  (s, preCalls ++ calls)

/-- The message whose image is loaded, and the embeddings of the image. -/
def visionInput (r : Request X L) : Option (Nat × List X) :=
  if ctx.visionConfigured then (visionMessage r.chat.messages).bind fun i => r.patches.map fun patches => (i, patches)
  else none

def contentAt (messages : List Message) (i : Nat) : Option (List UInt8) := messages[i]?.bind Message.content

/-- The messages after the vision pipeline: the prompt of the image has lost its prefix. -/
def messagesAfterVision (r : Request X L) : List Message :=
  match visionInput ctx r with
  | none => r.chat.messages
  | some (i, _) =>
    match contentAt r.chat.messages i, visionPrefix ctx.tok (contentAt r.chat.messages i) with
    | some content, some (pre, _) => r.chat.messages.modify i fun m => { m with content := some (strippedPrompt pre content) }
    | _, _ => r.chat.messages

/-- The content of the last user message that has one. -/
def lastUserContent (messages : List Message) : Option (List UInt8) :=
  (messages.reverse.find? fun m => m.role = ascii "user" ∧ m.content.isSome).bind Message.content

/-- The prompt given to the generation; `none` when its compilation fails. -/
def choosePrompt (messages : List Message) (chat : ChatRequest) : Option (List UInt8) :=
  if ctx.tok.chatTemplate.isSome then
    some (((lastUserContent messages).or (contentAt messages (messages.length - 1))).getD [])
  else ctx.compilePrompt { chat with messages := messages }

def clampMaxTokens (maxTokens : Int) : Int := if maxTokens ≤ 0 ∨ maxTokens > 4096 then 512 else maxTokens

/-- The vision part of a request. -/
def serveVision (r : Request X L) (s : RunState F X L C R) : RunState F X L C R × List (Call L) :=
  match visionInput ctx r with
  | none => (s, [])
  | some (i, patches) => visionPipelineRun ctx (contentAt r.chat.messages i) patches s

/-- The text part of a request. -/
def serveText (r : Request X L) (s : RunState F X L C R) : RunState F X L C R × List (Call L) × List (List UInt8) :=
  match choosePrompt ctx (messagesAfterVision ctx r) r.chat with
  | none => (s, [], [])
  | some prompt =>
    generateWithCallback ctx.kernels ctx.cfg ctx.moeCfg ctx.tok r.smp r.callback prompt (clampMaxTokens r.chat.maxTokens) s

/-- What `handle_chat_completions` does to the run state for a parsed request, the calls of the
forward pass it makes and the pieces it streams. -/
def serve (r : Request X L) (s : RunState F X L C R) : RunState F X L C R × List (Call L) × List (List UInt8) :=
  if r.chat.messages = [] then (s, [], [])
  else
    let (s, visionCalls) := serveVision ctx r s
    let (s, calls, emitted) := serveText ctx r s
    (s, visionCalls ++ calls, emitted)

/-- The run state after a history of requests. -/
def serveAll : List (Request X L) → RunState F X L C R → RunState F X L C R
  | [], s => s
  | r :: rs, s => serveAll rs (serve ctx r s).1

end

end BitForge.Server
