/-
The request parser of `api/json_parse.c`. The state is the memory from the cursor on: the rest of the
body, its NUL and what lies behind it. A run logs every byte read, every place of the cursor and every
store, the cursor's place as the number of bytes from it to the end of the memory. Allocations succeed;
`atof` stands for the conversion of a number's text.
-/
import BitForge.Lib.CString
import BitForge.Lib.Loop

namespace BitForge.Api

open BitForge.Lib

abbrev quote : UInt8 := 0x22
abbrev backslash : UInt8 := 0x5C
abbrev openBrace : UInt8 := 0x7B
abbrev closeBrace : UInt8 := 0x7D
abbrev openBracket : UInt8 := 0x5B
abbrev closeBracket : UInt8 := 0x5D
abbrev comma : UInt8 := 0x2C
abbrev colon : UInt8 := 0x3A

/-- What a step does to memory. -/
inductive JsonEvent
  | read (left : Nat)
  | cursor (left : Nat)
  /-- `parse_string` stands behind a backslash. -/
  | escape (left : Nat)
  | write (i cap : Nat)
deriving DecidableEq, Repr

abbrev Parser (α : Type) := Prog JsonEvent (List UInt8) α

/-! ## The cursor -/

/-- `**p` -/
def peek : Parser UInt8 := fun s => ⟨.ok (s.headD 0), s, [.read s.length]⟩

/-- `(*p)[k]` -/
def peekAt (k : Nat) : Parser UInt8 := fun s => ⟨.ok ((s.drop k).headD 0), s, [.read (s.drop k).length]⟩

/-- `(*p) += k` -/
def advance (k : Nat) : Parser Unit := fun s => ⟨.ok (), s.drop k, [.cursor (s.drop k).length]⟩

/-- `(*p)++` -/
def next : Parser Unit := advance 1

def atEscape : Parser Unit := fun s => ⟨.ok (), s, [.escape s.length]⟩

/-- A loop that advances the cursor in every iteration. -/
def scan {α β : Type} (f : α → Parser (α ⊕ β)) (a : α) : Parser β := Prog.loop List.length f a

/-! ## Internal helpers -/

def skipWsStep (_ : Unit) : Parser (Unit ⊕ Unit) := do
  let c ← peek
  if c ≠ 0 ∧ c ≤ 0x20 then
    next
    pure (.inl ())
  else pure (.inr ())

/-- `skip_ws` -/
def skipWs : Parser Unit := scan skipWsStep ()

/-- `expect_char`, returning from the caller on a mismatch. -/
def expectChar (c : UInt8) : Parser Unit := do
  skipWs
  let d ← peek
  if d ≠ c then Prog.fail else next

/-- The escapes that `parse_string` lists; every other character stands for itself. -/
def escapeTable : List (UInt8 × UInt8) :=
  [(quote, quote), (backslash, backslash), (0x2F, 0x2F), (0x6E, 0x0A), (0x72, 0x0D), (0x74, 0x09), (0x62, 0x08),
    (0x66, 0x0C)]

def unescape (c : UInt8) : UInt8 := (escapeTable.lookup c).getD c

/-- Skips the four digits of a `\u` escape if they are there, the text ending before no other of them. -/
def skipHex : Parser Unit := do
  if (← peekAt 1) ≠ 0 then
    if (← peekAt 2) ≠ 0 then
      if (← peekAt 3) ≠ 0 then
        if (← peekAt 4) ≠ 0 then
          advance 4

def parseEscape : Parser UInt8 := do
  next
  atEscape
  let c ← peek
  if c = 0x75 then
    skipHex
    pure 0x3F
  else pure (unescape c)

def parseChar (c : UInt8) : Parser UInt8 := if c = backslash then parseEscape else pure c

/-- `if (i < dst_cap - 1) dst[i++] = c` -/
def push (cap : Nat) (dst : List UInt8) (c : UInt8) : Parser (List UInt8) := do
  if dst.length < cap - 1 then
    Prog.emit (.write dst.length cap)
    pure (dst ++ [c])
  else pure dst

def parseStringStep (cap : Nat) (dst : List UInt8) : Parser (List UInt8 ⊕ Option (List UInt8)) := do
  let c ← peek
  if c ≠ 0 ∧ c ≠ quote then
    let c ← parseChar c
    let dst ← push cap dst c
    next
    pure (.inl dst)
  else if c ≠ quote then pure (.inr none)
  else
    next
    Prog.emit (.write dst.length cap)
    pure (.inr (some dst))

/-- `parse_string`: the decoded bytes, or nothing on an error. -/
def parseString (cap : Nat) : Parser (Option (List UInt8)) := do
  skipWs
  let c ← peek
  if c ≠ quote then pure none
  else
    next
    scan (parseStringStep cap) []

def measureStep (len : Nat) : Parser (Nat ⊕ Option Nat) := do
  let c ← peek
  if c ≠ 0 ∧ c ≠ quote then
    if c = backslash then
      next
      let d ← peek
      if d = 0 then pure (.inr none)
      else
        next
        pure (.inl (len + 1))
    else
      next
      pure (.inl (len + 1))
  else if c ≠ quote then pure (.inr none)
  else pure (.inr (some len))

/-- `parse_string_heap`: the first pass measures the string, the second decodes it. -/
def parseStringHeap : Parser (Option (List UInt8)) := do
  skipWs
  let c ← peek
  if c ≠ quote then pure none
  else
    let len ← Prog.onCopy do
      next
      scan measureStep 0
    match len with
    | none => pure none
    | some len => parseString (len + 1)

/-- A null result makes the caller return an error. -/
def orFail {α : Type} (r : Parser (Option α)) : Parser α := do
  match ← r with
  | some a => pure a
  | none => Prog.fail

def isNumberByte (c : UInt8) : Bool :=
  (0x30 ≤ c && c ≤ 0x39) || c == 0x2E || c == 0x2D || c == 0x2B || c == 0x65 || c == 0x45

def parseNumberStep (buf : List UInt8) : Parser (List UInt8 ⊕ List UInt8) := do
  let c ← peek
  if c ≠ 0 ∧ isNumberByte c then
    let buf ← push 64 buf c
    next
    pure (.inl buf)
  else
    Prog.emit (.write buf.length 64)
    pure (.inr buf)

/-- `parse_number`, up to the text that it gives to `atof`. -/
def parseNumber : Parser (List UInt8) := do
  skipWs
  scan parseNumberStep []

/-- `strncmp(*p, lit, n) == 0` -/
def strncmpEq : List UInt8 → Parser Bool
  | [] => pure true
  | c :: lit => do
    let d ← peek
    if d = c then
      next
      strncmpEq lit
    else pure false

/-- `parse_bool` -/
def parseBool : Parser (Option Bool) := do
  skipWs
  if ← Prog.onCopy (strncmpEq (ascii "true")) then
    advance 4
    pure (some true)
  else if ← Prog.onCopy (strncmpEq (ascii "false")) then
    advance 5
    pure (some false)
  else pure none

/-- The loops that skip an object or an array, with the depth of its own brackets. -/
def skipNestedStep (opening closing : UInt8) (depth : Int) : Parser (Int ⊕ Unit) := do
  let c ← peek
  if c = 0 then pure (.inr ())
  else if c = opening then
    next
    pure (.inl (depth + 1))
  else if c = closing then
    next
    if depth - 1 = 0 then pure (.inr ()) else pure (.inl (depth - 1))
  else if c = quote then
    let _ ← parseString 4096
    pure (.inl depth)
  else
    next
    pure (.inl depth)

def skipAtomStep (_ : Unit) : Parser (Unit ⊕ Unit) := do
  let c ← peek
  if c ≠ 0 ∧ c ≠ comma ∧ c ≠ closeBrace ∧ c ≠ closeBracket then
    next
    pure (.inl ())
  else pure (.inr ())

/-- `skip_value` -/
def skipValue : Parser Unit := do
  skipWs
  let c ← peek
  if c = quote then
    let _ ← parseString 4096
  else if c = openBrace then scan (skipNestedStep openBrace closeBrace) 0
  else if c = openBracket then scan (skipNestedStep openBracket closeBracket) 0
  else scan skipAtomStep ()

/-! ## Messages -/

structure ChatMessage where
  role : List UInt8
  content : Option (List UInt8)
  imageDataUrl : Option (List UInt8)
deriving DecidableEq, Repr

/-- `strcmp(key, name) == 0` -/
def keyIs (key : List UInt8) (name : String) : Bool := untilNul key == ascii name

/-- `skip_ws(p); if (**p == ',') (*p)++;` -/
def skipComma : Parser Unit := do
  skipWs
  if (← peek) = comma then next

/-- An iteration of the loops over the fields of an object: the key, what `field` does with it, and the comma. -/
def fieldStep {α : Type} (cap : Nat) (field : List UInt8 → α → Parser α) (a : α) : Parser (α ⊕ α) := do
  let c ← peek
  if c ≠ 0 ∧ c ≠ closeBrace then
    skipWs
    if (← peek) = closeBrace then pure (.inr a)
    else
      let key ← orFail (parseString cap)
      expectChar colon
      skipWs
      let a ← field key a
      skipComma
      pure (.inl a)
  else pure (.inr a)

def imageUrlField (nkey : List UInt8) (msg : ChatMessage) : Parser ChatMessage := do
  if keyIs nkey "url" then
    let url ← orFail parseStringHeap
    pure { msg with imageDataUrl := some url }
  else
    skipValue
    pure msg

/-- `strcmp(key, "image_url") == 0 && **p == '{'` -/
def atImageObject (key : List UInt8) : Parser Bool := do
  if keyIs key "image_url" then
    let c ← peek
    pure (c == openBrace)
  else pure false

def partField (key : List UInt8) (msg : ChatMessage) : Parser ChatMessage := do
  if keyIs key "text" then
    let text ← orFail parseStringHeap
    pure { msg with content := some text }
  else if ← atImageObject key then
    next
    let msg ← scan (fieldStep 32 imageUrlField) msg
    expectChar closeBrace
    pure msg
  else
    skipValue
    pure msg

/-- What separates two elements of an array. -/
def skipCommaWs : Parser Unit := do
  skipWs
  if (← peek) = comma then
    next
    skipWs

def partsStep (msg : ChatMessage) : Parser (ChatMessage ⊕ ChatMessage) := do
  let c ← peek
  if c ≠ 0 ∧ c ≠ closeBracket then
    expectChar openBrace
    let msg ← scan (fieldStep 64 partField) msg
    expectChar closeBrace
    skipCommaWs
    pure (.inl msg)
  else pure (.inr msg)

/-- `parse_content_parts` -/
def parseContentParts (msg : ChatMessage) : Parser ChatMessage := do
  expectChar openBracket
  skipWs
  let msg ← scan partsStep msg
  expectChar closeBracket
  pure msg

def messageField (key : List UInt8) (msg : ChatMessage) : Parser ChatMessage := do
  if keyIs key "role" then
    let role ← orFail (parseString 32)
    pure { msg with role := role }
  else if keyIs key "content" then
    skipWs
    if (← peek) = openBracket then parseContentParts msg
    else
      let content ← orFail parseStringHeap
      pure { msg with content := some content }
  else
    skipValue
    pure msg

def chatMaxMessages : Nat := 64

def skipToBracketStep (_ : Unit) : Parser (Unit ⊕ Unit) := do
  let c ← peek
  if c ≠ 0 ∧ c ≠ closeBracket then
    next
    pure (.inl ())
  else pure (.inr ())

def messagesStep (messages : List ChatMessage) : Parser (List ChatMessage ⊕ List ChatMessage) := do
  let c ← peek
  if c ≠ 0 ∧ c ≠ closeBracket then
    expectChar openBrace
    if messages.length ≥ chatMaxMessages then
      -- too many messages: skip the remainder of the array
      scan skipToBracketStep ()
      pure (.inr messages)
    else
      let msg ← scan (fieldStep 64 messageField) { role := [], content := none, imageDataUrl := none }
      expectChar closeBrace
      skipCommaWs
      pure (.inl (messages ++ [msg]))
  else pure (.inr messages)

/-- `parse_messages` -/
def parseMessages (messages : List ChatMessage) : Parser (List ChatMessage) := do
  expectChar openBracket
  skipWs
  let messages ← scan messagesStep messages
  expectChar closeBracket
  pure messages

/-! ## The request -/

/-- `ChatRequest`, its floating-point fields of the type `F`. -/
structure ChatRequest (F : Type) where
  model : List UInt8
  messages : List ChatMessage
  temperature : F
  topP : F
  maxTokens : Int
  stream : Bool
deriving DecidableEq, Repr

/-- `1.0f`, `(float)atof(buf)` and `(int)atof(buf)`. -/
structure Atof (F : Type) where
  one : F
  float : List UInt8 → F
  int : List UInt8 → Int

section

variable {F : Type} (atof : Atof F)

/-- `chat_request_init` -/
def chatRequestInit : ChatRequest F where
  model := ascii "local"
  messages := []
  temperature := atof.one
  topP := atof.one
  maxTokens := 512
  stream := false

def requestField (key : List UInt8) (req : ChatRequest F) : Parser (ChatRequest F) := do
  if keyIs key "model" then
    let model ← orFail (parseString 128)
    pure { req with model := model }
  else if keyIs key "messages" then
    let messages ← parseMessages req.messages
    pure { req with messages := messages }
  else if keyIs key "temperature" then
    let text ← parseNumber
    pure { req with temperature := atof.float text }
  else if keyIs key "top_p" then
    let text ← parseNumber
    pure { req with topP := atof.float text }
  else if keyIs key "max_tokens" then
    let text ← parseNumber
    pure { req with maxTokens := atof.int text }
  else if keyIs key "stream" then
    let b ← orFail parseBool
    pure { req with stream := b }
  else
    skipValue
    pure req

/-- `chat_request_parse`; it fails where the source returns `TN_ERR_JSON_PARSE`. -/
def chatRequestParse (req : ChatRequest F) : Parser (ChatRequest F) := do
  skipWs
  let c ← peek
  if c ≠ openBrace then Prog.fail
  else
    next
    scan (fieldStep 128 (requestField atof)) req

end

end BitForge.Api
