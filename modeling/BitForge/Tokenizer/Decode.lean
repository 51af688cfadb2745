/-
The decoder (tokenizer_decode.c): the string of a token is read one UTF-8 character at a time and each
character of the byte table becomes its byte, in a buffer of 512 bytes.
-/
import BitForge.Tokenizer.Encode

namespace BitForge.Tokenizer

open Lib

/-- `g_bpe_cp_to_byte`: the bytes of the code points below 324. -/
def bpeCpToByteTable : List Int :=
  [-1, -1, -1, -1, -1, -1, -1, -1, -1, -1, -1, -1, -1, -1, -1, -1,
   -1, -1, -1, -1, -1, -1, -1, -1, -1, -1, -1, -1, -1, -1, -1, -1,
   -1, 33, 34, 35, 36, 37, 38, 39, 40, 41, 42, 43, 44, 45, 46, 47,
   48, 49, 50, 51, 52, 53, 54, 55, 56, 57, 58, 59, 60, 61, 62, 63,
   64, 65, 66, 67, 68, 69, 70, 71, 72, 73, 74, 75, 76, 77, 78, 79,
   80, 81, 82, 83, 84, 85, 86, 87, 88, 89, 90, 91, 92, 93, 94, 95,
   96, 97, 98, 99, 100, 101, 102, 103, 104, 105, 106, 107, 108, 109, 110, 111,
   112, 113, 114, 115, 116, 117, 118, 119, 120, 121, 122, 123, 124, 125, 126, -1,
   -1, -1, -1, -1, -1, -1, -1, -1, -1, -1, -1, -1, -1, -1, -1, -1,
   -1, -1, -1, -1, -1, -1, -1, -1, -1, -1, -1, -1, -1, -1, -1, -1,
   -1, 161, 162, 163, 164, 165, 166, 167, 168, 169, 170, 171, 172, -1, 174, 175,
   176, 177, 178, 179, 180, 181, 182, 183, 184, 185, 186, 187, 188, 189, 190, 191,
   192, 193, 194, 195, 196, 197, 198, 199, 200, 201, 202, 203, 204, 205, 206, 207,
   208, 209, 210, 211, 212, 213, 214, 215, 216, 217, 218, 219, 220, 221, 222, 223,
   224, 225, 226, 227, 228, 229, 230, 231, 232, 233, 234, 235, 236, 237, 238, 239,
   240, 241, 242, 243, 244, 245, 246, 247, 248, 249, 250, 251, 252, 253, 254, 255,
   0, 1, 2, 3, 4, 5, 6, 7, 8, 9, 10, 11, 12, 13, 14, 15,
   16, 17, 18, 19, 20, 21, 22, 23, 24, 25, 26, 27, 28, 29, 30, 31,
   32, 127, 128, 129, 130, 131, 132, 133, 134, 135, 136, 137, 138, 139, 140, 141,
   142, 143, 144, 145, 146, 147, 148, 149, 150, 151, 152, 153, 154, 155, 156, 157,
   158, 159, 160, 173]

/-- The byte of a code point, where it has one. -/
def bpeCpToByte (cp : Nat) : Option UInt8 :=
  if cp < 324 ∧ 0 ≤ bpeCpToByteTable.getD cp (-1) then some (bpeCpToByteTable.getD cp (-1)).toNat.toUInt8 else none

/-- `bpe_decode_utf8_cp`: the code point at the start of a C string, and the length of what is read. -/
def bpeDecodeUtf8Cp (s : List UInt8) : Option Nat × Nat :=
  let c0 := s.getD 0 0
  let c1 := s.getD 1 0
  if c0 < 0x80 then (some c0.toNat, 1)
  else if c0 &&& 0xe0 = 0xc0 ∧ c1 ≠ 0 ∧ c1 &&& 0xc0 = 0x80 then
    (some ((c0 &&& 0x1f).toNat <<< 6 ||| (c1 &&& 0x3f).toNat), 2)
  else (none, 1)

/-- What a character is written as: its byte, or else itself as far as there is room. -/
def bpeWritten (room : Nat) (s : List UInt8) : List UInt8 :=
  match (bpeDecodeUtf8Cp s).1.bind bpeCpToByte with
  | some b => [b]
  | none => (s.take (bpeDecodeUtf8Cp s).2).take room

/-- The loop of `bpe_bytes_decode` with `out` written. -/
def bpeDecodeLoop (outCap : Nat) : Nat → List UInt8 → List UInt8 → List UInt8
  | 0, _, out => out
  | _, [], out => out
  | fuel + 1, c :: s, out =>
    if out.length + 1 < outCap then
      bpeDecodeLoop outCap fuel ((c :: s).drop (bpeDecodeUtf8Cp (c :: s)).2)
        (out ++ bpeWritten (outCap - 1 - out.length) (c :: s))
    else out

/-- `bpe_bytes_decode`. -/
def bpeBytesDecode (piece : List UInt8) (outCap : Nat) : List UInt8 := bpeDecodeLoop outCap piece.length piece []

/-- The strings that stand for a byte: `<0xHH>`, and what starts so. -/
def isByteToken (piece : List UInt8) : Bool :=
  decide (6 ≤ piece.length) && piece.getD 0 0 == 60 && piece.getD 1 0 == 48 && piece.getD 2 0 == 120 && piece.getD 5 0 == 62

def hexDigit (c : UInt8) : Nat :=
  if 48 ≤ c ∧ c ≤ 57 then c.toNat - 48
  else if 97 ≤ c ∧ c ≤ 102 then c.toNat - 97 + 10
  else if 65 ≤ c ∧ c ≤ 70 then c.toNat - 65 + 10
  else 0

def byteVal (piece : List UInt8) : UInt8 := (hexDigit (piece.getD 3 0) * 16 + hexDigit (piece.getD 4 0)).toUInt8

variable (t : Tokenizer)

/-- The previous token is BOS and the string starts with a space, in either form. -/
def StripsSpace (prev : Int) (piece : List UInt8) : Prop :=
  (0 ≤ t.bosTokenId ∧ prev = t.bosTokenId) ∧ (piece.getD 0 0 = 0xc4 ∧ piece.getD 1 0 = 0xa0 ∨ piece.getD 0 0 = 32)

instance (prev : Int) (piece : List UInt8) : Decidable (t.StripsSpace prev piece) :=
  inferInstanceAs (Decidable (_ ∧ _))

/-- The string without the space that BOS brings. -/
def stripSpace (prev : Int) (piece : List UInt8) : List UInt8 :=
  if 0 ≤ t.bosTokenId ∧ prev = t.bosTokenId then
    if piece.getD 0 0 = 0xc4 ∧ piece.getD 1 0 = 0xa0 then piece.drop 2
    else if piece.getD 0 0 = 32 then piece.drop 1
    else piece
  else piece

/-- `tokenizer_decode`: the C string it returns. -/
def decode (prev token : Int) : List UInt8 :=
  if token < 0 ∨ (t.vocabSize : Int) ≤ token then []
  else
    let piece := t.str token.toNat
    if isByteToken piece then untilNul [byteVal piece]
    else untilNul (bpeBytesDecode (t.stripSpace prev piece) 512)

/-- The decoded strings of tokens one after the other. -/
def decodeAll : Int → List Nat → List UInt8
  | _, [] => []
  | prev, token :: tokens => t.decode prev token ++ decodeAll token tokens

end BitForge.Tokenizer
