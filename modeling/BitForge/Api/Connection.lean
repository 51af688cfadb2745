/-
One connection of `api/http_server.c`: the loop that receives the request, the gate for
authorization, the dispatch to the handlers and the recording of the status. Allocation of the
receive buffer and its growth succeed. What the handlers find outside the server is given.
-/
import BitForge.Api.Cancel
import BitForge.Api.HttpParse

namespace BitForge.Api

open BitForge.Lib

/-! ## Receiving -/

def httpRecvBuf : Nat := 8192
@[irreducible] def httpMaxBodyBytes : Nat := 8 * 1024 * 1024

/-- The variables of the loop; `total` is the length of `buf`. -/
structure RecvState where
  buf : List UInt8
  cap : Nat
  headersDone : Bool
  contentLength : Int
  headerEnd : Nat
deriving DecidableEq, Repr

def RecvState.start : RecvState := ⟨[], httpRecvBuf, false, -1, 0⟩

/-- The end of the headers in the received text. -/
def findHeaderEnd (text : List UInt8) : Option Nat :=
  match strstr text [13, 10, 13, 10] with
  | some i => some (i + 4)
  | none => (strstr text [10, 10]).map (· + 2)

/-- The `Content-Length` that the loop finds in the received text. -/
def scanLength (text : List UInt8) : Int :=
  match strcasestr text (ascii "content-length:") with
  | some i => atoi (text.drop (i + 15))
  | none => -1

/-- The look at the buffer after some bytes arrived; the loop stops there or goes on. -/
def RecvState.examine (s : RecvState) : RecvState × Bool :=
  if s.headersDone then (s, 0 ≤ s.contentLength ∧ (s.headerEnd : Int) + s.contentLength ≤ s.buf.length)
  else
    match findHeaderEnd (untilNul s.buf) with
    | none => (s, false)
    | some h =>
      let s := { s with headersDone := true, headerEnd := h, contentLength := scanLength (untilNul s.buf) }
      (s, s.contentLength < 0 ∨ (s.headerEnd : Int) + s.contentLength ≤ s.buf.length)

inductive Received
  | tooLarge
  | got (s : RecvState)
deriving DecidableEq, Repr

/-- The loop over `recv`. A call gives the next of the sizes, or what the buffer has room for or the
client sent where that is less; where the sizes end the connection does. -/
def recvLoop (stream : List UInt8) : List Nat → RecvState → Received
  | [], s => .got s
  | n :: ns, s =>
    if httpMaxBodyBytes + 4096 ≤ s.buf.length then .got s
    else
      let piece := (stream.drop s.buf.length).take (min n (s.cap - s.buf.length - 1))
      if piece = [] then .got s
      else
        match { s with buf := s.buf ++ piece }.examine with
        | (s, true) => .got s
        | (s, false) =>
          if s.cap - s.buf.length < 1024 then
            if httpMaxBodyBytes + 8192 < s.cap * 2 then .tooLarge else recvLoop stream ns { s with cap := s.cap * 2 }
          else recvLoop stream ns s

def receive (stream : List UInt8) (sizes : List Nat) : Received := recvLoop stream sizes .start

/-! ## Authorization -/

/-- `constant_time_eq`. -/
def constantTimeEq (a b : List UInt8) : Bool :=
  if a.length ≠ b.length then false else (List.zipWith (· ^^^ ·) a b).foldl (· ||| ·) 0 = 0

/-- `auth_check_request`. -/
def authCheckRequest (apiKey header : Option (List UInt8)) : Bool :=
  match apiKey, header with
  | none, _ => true
  | some _, none => false
  | some key, some value => (ascii "Bearer ").isPrefixOf value && constantTimeEq (value.drop 7) key

/-! ## The server's settings and surroundings -/

structure ServerConfig where
  corsEnabled : Bool
  origins : List (List UInt8)
  apiKey : Option (List UInt8)
  metricsEnabled : Bool
  webUi : Bool
  staticDir : Option (List UInt8)
deriving DecidableEq, Repr

/-- What `fopen` and the reading of a file of the web UI give. -/
inductive FileLookup
  | missing
  | unreadable
  | readable
deriving DecidableEq, Repr

/-- What the handlers of one connection find: whether `malloc` succeeds, the state of the generation
and of the cancel registry, the parse of a chat request, and the files of the web UI. -/
structure Surroundings where
  bodyAlloc : Bool
  generationFree : Bool
  chatRequestParse : List UInt8 → Option Nat
  hasChatTemplate : Bool
  promptAlloc : Bool
  chatCompilePrompt : List UInt8 → Bool
  cancel : CancelState
  openFile : List UInt8 → FileLookup
  bundle : List (List UInt8)

/-- What is sent: the status, and the extra headers of the response. -/
structure Response where
  status : Nat
  extraHeaders : List UInt8
deriving DecidableEq, Repr

/-! ## Handlers -/

/-- `cors_format_headers` into a buffer of `cap` bytes. -/
def corsFormatHeaders (cfg : ServerConfig) (origin : Option (List UInt8)) (cap : Nat) : List UInt8 :=
  match origin with
  | none => []
  | some o =>
    if cfg.origins.any fun a => a = ascii "*" ∨ a = o then
      let text := ascii "Access-Control-Allow-Origin: " ++ o ++
        ascii "\r\nAccess-Control-Allow-Methods: GET, POST, OPTIONS\r\n" ++
        ascii "Access-Control-Allow-Headers: Content-Type, Authorization\r\nVary: Origin\r\n"
      if cap ≤ text.length then [] else text
    else []

/-- `handle_chat_completions`: the status that it sends. -/
def handleChatCompletions (env : Surroundings) (body : List UInt8) : Nat :=
  if ¬ env.generationFree then 429
  else if ¬ env.bodyAlloc then 500
  else
    match env.chatRequestParse (untilNul body) with
    | none => 400
    | some numMessages =>
      if numMessages = 0 then 400
      else if env.hasChatTemplate then 200
      else if ¬ env.promptAlloc then 500
      else if ¬ env.chatCompilePrompt (untilNul body) then 500
      else 200

/-- `handle_cancel`: the status that it sends. -/
def handleCancel (env : Surroundings) (body : List UInt8) : Nat :=
  if ¬ env.bodyAlloc then 500
  else
    match extractIdField (untilNul body) 32 with
    | none => 400
    | some id => if (cancelRegistryRequest env.cancel id).1 then 200 else 404

/-- `is_asset_path`. -/
def isAssetPath (path : List UInt8) : Bool := (ascii "/assets/").isPrefixOf path

/-- `static_assets_path_is_safe`. -/
def staticAssetsPathIsSafe (path : List UInt8) : Bool :=
  path.head? = some 47 ∧ ascii ".." ∉ path.splitOn 47

/-- `serve_from_disk`: the status that it sends and the one that it returns. -/
def serveFromDisk (env : Surroundings) (staticDir path : List UInt8) : Nat × Nat :=
  if ¬ staticAssetsPathIsSafe path then (404, 404)
  else
    let fsPath := if path = ascii "/" then staticDir ++ ascii "/index.html" else staticDir ++ path
    let f := env.openFile (fsPath.take 1023)
    let f := if f = .missing ∧ ¬ isAssetPath path then env.openFile ((staticDir ++ ascii "/index.html").take 1023) else f
    match f with
    | .missing => (404, 404)
    | .unreadable => (404, 404)
    | .readable => (200, 200)

/-- `serve_from_bundle`. -/
def serveFromBundle (env : Surroundings) (path : List UInt8) : Nat × Nat :=
  if path ∈ env.bundle ∨ ¬ isAssetPath path ∧ ascii "/" ∈ env.bundle then (200, 200) else (404, 404)

/-- `static_assets_serve`. -/
def staticAssetsServe (cfg : ServerConfig) (env : Surroundings) (path : List UInt8) : Nat × Nat :=
  match cfg.staticDir with
  | some dir => serveFromDisk env dir path
  | none => serveFromBundle env path

/-! ## Dispatch -/

inductive Route
  | models
  | health
  | metrics
  | docs
  | openapi
  | chat
  | cancel
  | webUi
  | notFound
deriving DecidableEq, Repr

/-- The chain of comparisons of `handle_connection`. -/
def route (cfg : ServerConfig) (method path : List UInt8) : Route :=
  if method = ascii "GET" ∧ path = ascii "/v1/models" then .models
  else if method = ascii "GET" ∧ path = ascii "/health" then .health
  else if method = ascii "GET" ∧ path = ascii "/metrics" then .metrics
  else if method = ascii "GET" ∧ path = ascii "/docs" then .docs
  else if method = ascii "GET" ∧ path = ascii "/openapi.json" then .openapi
  else if method = ascii "POST" ∧ path = ascii "/v1/chat/completions" then .chat
  else if method = ascii "POST" ∧ path = ascii "/v1/chat/completions/cancel" then .cancel
  else if method = ascii "GET" ∧ cfg.webUi then .webUi
  else .notFound

/-- A route's branch: the status that is sent, and the variable `status` after it. -/
def dispatch (cfg : ServerConfig) (env : Surroundings) (req : HttpRequest) : Nat × Nat :=
  match route cfg req.method req.path with
  | .models | .health | .docs | .openapi => (200, 200)
  | .metrics => if cfg.metricsEnabled then (200, 200) else (404, 404)
  | .chat => (handleChatCompletions env req.body, 200)
  | .cancel => (handleCancel env req.body, 200)
  | .webUi => staticAssetsServe cfg env req.path
  | .notFound => (404, 404)

/-- What a connection did: its response, the status recorded in the metrics, and the request that a
route's branch ran for. -/
structure Handled where
  response : Response
  recorded : Option Nat
  dispatched : Option HttpRequest
deriving DecidableEq, Repr

/-- `handle_connection` from the end of the loop on. -/
def handleRequest (cfg : ServerConfig) (env : Surroundings) (raw : List UInt8) : Handled :=
  match httpParse raw with
  | none => ⟨⟨400, []⟩, none, none⟩
  | some req =>
    let extra := if cfg.corsEnabled then corsFormatHeaders cfg req.origin 512 else []
    let isHealth := req.method = ascii "GET" ∧ req.path = ascii "/health"
    if req.method = ascii "OPTIONS" then ⟨⟨204, extra⟩, none, none⟩
    else if ¬ isHealth ∧ ¬ authCheckRequest cfg.apiKey req.authorization then ⟨⟨401, extra⟩, some 401, none⟩
    else
      let r := dispatch cfg env req
      ⟨⟨r.1, extra⟩, some r.2, some req⟩

/-- `handle_connection`. -/
def handleConnection (cfg : ServerConfig) (env : Surroundings) (stream : List UInt8) (sizes : List Nat) : Handled :=
  match receive stream sizes with
  | .tooLarge => ⟨⟨413, []⟩, none, none⟩
  | .got s => handleRequest cfg env s.buf

/-- A server with its defaults. -/
def plainConfig : ServerConfig := ⟨false, [], none, false, false, none⟩

/-- A server with no generation in flight that accepts no chat request. -/
def quietSurroundings : Surroundings where
  bodyAlloc := true
  generationFree := true
  chatRequestParse _ := none
  hasChatTemplate := true
  promptAlloc := true
  chatCompilePrompt _ := true
  cancel := cancelStateInit
  openFile _ := .missing
  bundle := []

end BitForge.Api
