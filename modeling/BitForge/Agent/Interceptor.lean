/-
The streaming tag parser of `agent/tool_interceptor.c`: pieces are appended to a buffer, and the
first complete tag of it is cut out together with everything before it.
-/
import BitForge.Lib.CString

namespace BitForge.Agent

open BitForge.Lib

inductive TITag
  | exec
  | think
  | saveMemory
  | searchMemory
  | result
deriving DecidableEq, Repr

/-- The table `tags`, in the order in which they are looked for. -/
def tags : List (List UInt8 × List UInt8 × TITag) :=
  [(ascii "<exec>", ascii "</exec>", .exec),
    (ascii "<think>", ascii "</think>", .think),
    (ascii "<save_memory>", ascii "</save_memory>", .saveMemory),
    (ascii "<search_memory>", ascii "</search_memory>", .searchMemory),
    (ascii "<result>", ascii "</result>", .result)]

/-- `sizeof(buffer)`. -/
def tiBufferSize : Nat := 8192

/-- The first complete tag of the table in the buffer: the tag, its content, and what follows it. -/
def findTag (buffer : List UInt8) : List (List UInt8 × List UInt8 × TITag) → Option (TITag × List UInt8 × List UInt8)
  | [] => none
  | (opening, closing, tag) :: rest =>
    match strstr buffer opening with
    | none => findTag buffer rest
    | some i =>
      let start := buffer.drop (i + opening.length)
      match strstr start closing with
      | none => findTag buffer rest -- wait for closing tag
      | some innerLen => some (tag, start.take innerLen, start.drop (innerLen + closing.length))

/-- `ti_process_piece`: the buffer after the piece, and the tag found with its content, cut to
`outBufSize - 1` bytes; none is `TI_TAG_NONE`. -/
def tiProcessPiece (buffer piece : List UInt8) (outBufSize : Nat) : List UInt8 × Option (TITag × List UInt8) :=
  if piece = [] then (buffer, none)
  else
    -- truncate if full
    let space := tiBufferSize - 1 - buffer.length
    let buffer := buffer ++ piece.take space
    match findTag buffer tags with
    | none => (buffer, none)
    | some (tag, inner, rest) => (rest, some (tag, inner.take (outBufSize - 1)))

end BitForge.Agent
