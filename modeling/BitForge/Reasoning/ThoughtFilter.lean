/-
The filter of hidden reasoning in `reasoning/thought_filter.c`, and the pieces that
`generate_with_reasoning` prints through it. Pieces are C strings: the bytes before the NUL.
-/
import BitForge.Lib.CString

namespace BitForge.Reasoning

open BitForge.Lib

def openTag : List UInt8 := ascii "<think>"
def closeTag : List UInt8 := ascii "</think>"

inductive FilterState
  | passthrough
  | bufferingOpenTag
  | thinking
  | bufferingCloseTag
  | output
deriving DecidableEq, Repr

/-- `ThoughtFilter`; `tagBuffer` holds the first `tag_pos` bytes of `tag_buffer`. -/
structure ThoughtFilter where
  state : FilterState
  tagBuffer : List UInt8
  thinkTokenCount : Nat
deriving DecidableEq, Repr

/-- `thought_filter_init`. -/
def thoughtFilterInit : ThoughtFilter := ⟨.passthrough, [], 0⟩

/-- Accumulates a character of a tag. -/
def pushTag (buffer : List UInt8) (c : UInt8) : List UInt8 := if buffer.length < 15 then buffer ++ [c] else buffer

/-- The character last accumulated is not the one that the tag has there. -/
def mismatch (tag buffer : List UInt8) (c : UInt8) : Bool :=
  0 < buffer.length && (tag[buffer.length - 1]?).getD 0 != c

/-- The body of the loop of `thought_filter_process`: the filter after the character `c`, and the
bytes it appends to the output as far as they fit. -/
def filterChar (f : ThoughtFilter) (c : UInt8) : ThoughtFilter × List UInt8 :=
  match f.state with
  | .passthrough =>
    if c = 60 then ({ f with state := .bufferingOpenTag, tagBuffer := [60] }, [])
    else (f, [c])
  | .bufferingOpenTag =>
    let buffer := pushTag f.tagBuffer c
    if buffer.length = 7 ∧ buffer = openTag then ({ f with state := .thinking, tagBuffer := [] }, [])
    else if mismatch openTag buffer c then ({ f with state := .passthrough, tagBuffer := [] }, buffer)
    else ({ f with tagBuffer := buffer }, [])
  | .thinking =>
    let f := { f with thinkTokenCount := f.thinkTokenCount + 1 }
    if c = 60 then ({ f with state := .bufferingCloseTag, tagBuffer := [60] }, [])
    else (f, [])
  | .bufferingCloseTag =>
    let buffer := pushTag f.tagBuffer c
    if buffer.length = 8 ∧ buffer = closeTag then ({ f with state := .output, tagBuffer := [] }, [])
    else if mismatch closeTag buffer c then ({ f with state := .thinking, tagBuffer := [] }, [])
    else ({ f with tagBuffer := buffer }, [])
  | .output => (f, [c])

/-- The bounds check of an append: what does not fit as a whole is dropped. -/
def appendOut (outputBufSize : Nat) (out bytes : List UInt8) : List UInt8 :=
  if out.length + bytes.length < outputBufSize then out ++ bytes else out

/-- The loop of `thought_filter_process`. -/
def filterLoop (outputBufSize : Nat) : ThoughtFilter → List UInt8 → List UInt8 → ThoughtFilter × List UInt8
  | f, out, [] => (f, out)
  | f, out, c :: s =>
    filterLoop outputBufSize (filterChar f c).1 (appendOut outputBufSize out (filterChar f c).2) s

/-- `thought_filter_process`: the filter after the piece, and the text to show, shown unless empty. -/
def thoughtFilterProcess (f : ThoughtFilter) (tokenStr : List UInt8) (outputBufSize : Nat) : ThoughtFilter × List UInt8 :=
  if outputBufSize = 0 then (f, []) else filterLoop outputBufSize f [] tokenStr

/-- `sizeof(output)` in `generate_with_reasoning`. -/
def outputSize : Nat := 256

/-- What `generate_with_reasoning` prints for the decoded pieces. -/
def printPieces : ThoughtFilter → List (List UInt8) → List UInt8
  | _, [] => []
  | f, piece :: pieces =>
    (thoughtFilterProcess f piece outputSize).2 ++ printPieces (thoughtFilterProcess f piece outputSize).1 pieces

end BitForge.Reasoning
