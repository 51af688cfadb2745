/-
The request parser of `api/http_server.c`. It works on the received bytes up to the first NUL; the
body is what stands behind the blank line in all of the received bytes.
-/
import BitForge.Lib.CString

namespace BitForge.Api

open BitForge.Lib

/-! ## Functions of the C library -/

/-- `tolower` of the C locale. -/
def toLower (c : UInt8) : UInt8 := if 65 ≤ c ∧ c ≤ 90 then c + 32 else c

/-- `strncasecmp(p, pat, strlen(pat)) == 0`. -/
def startsNoCase (p pat : List UInt8) : Bool := (pat.map toLower).isPrefixOf (p.map toLower)

/-- `strcasestr`. -/
def strcasestr (s pat : List UInt8) : Option Nat := strstr (s.map toLower) (pat.map toLower)

def isSpace (c : UInt8) : Bool := c = 32 ∨ 9 ≤ c ∧ c ≤ 13

def isDigit (c : UInt8) : Bool := 48 ≤ c ∧ c ≤ 57

/-- The number that decimal digits write. -/
def decimal (ds : List UInt8) : Nat := ds.foldl (fun n d => 10 * n + (d.toNat - 48)) 0

/-- The cast of a `long` to `int`. -/
def castInt (n : Int) : Int := (n + 2 ^ 31) % 2 ^ 32 - 2 ^ 31

/-- `atoi`: `strtol`, which stops at the ends of `long`, cast to `int`. -/
def atoi (s : List UInt8) : Int :=
  match s.dropWhile isSpace with
  | 45 :: t => castInt (max (-(decimal (t.takeWhile isDigit) : Int)) (-2 ^ 63))
  | 43 :: t => castInt (min (decimal (t.takeWhile isDigit) : Int) (2 ^ 63 - 1))
  | t => castInt (min (decimal (t.takeWhile isDigit) : Int) (2 ^ 63 - 1))

/-! ## Requests -/

/-- `HttpRequest`; the flags `has_origin` and `has_authorization` are the options' cases. -/
structure HttpRequest where
  method : List UInt8
  path : List UInt8
  body : List UInt8
  contentLength : Int
  origin : Option (List UInt8)
  authorization : Option (List UInt8)
deriving DecidableEq, Repr

/-- The value of a header, up to the end of its line. -/
def headerValue (p : List UInt8) : List UInt8 := (p.dropWhile (· = 32)).takeWhile fun c => c ≠ 13 ∧ c ≠ 10

/-- `copy_header_value` into a field of `dstCap` bytes. -/
def copyHeaderValue (p : List UInt8) (dstCap : Nat) : List UInt8 := (headerValue p).take (dstCap - 1)

/-- The number behind `content-length:`. -/
def lengthValue (p : List UInt8) : Int := atoi (p.dropWhile (· = 32))

/-- What a header line that starts at `p` adds to the request. -/
def HttpRequest.addHeader (req : HttpRequest) (p : List UInt8) : HttpRequest :=
  if startsNoCase p (ascii "content-length:") then { req with contentLength := lengthValue (p.drop 15) }
  else if startsNoCase p (ascii "origin:") then { req with origin := some (copyHeaderValue (p.drop 7) 256) }
  else if startsNoCase p (ascii "authorization:") then
    { req with authorization := some (copyHeaderValue (p.drop 14) 512) }
  else req

/-- The loop over the header lines, at the start of a line or inside one; with the request, what
follows the blank line. -/
def parseHeaders : Bool → List UInt8 → HttpRequest → HttpRequest × List UInt8
  | _, [], req => (req, [])
  | true, c :: s, req =>
    if c = 13 ∧ s.head? = some 10 then (req, s.tail)
    else if c = 10 then (req, s)
    else parseHeaders false s (req.addHeader (c :: s))
  | false, c :: s, req => if c = 10 then parseHeaders true s req else parseHeaders false s req

/-- The request line: the method, the path and what follows the path. -/
def parseRequestLine (buf : List UInt8) : Option (List UInt8 × List UInt8 × List UInt8) :=
  let method := (buf.takeWhile (· ≠ 32)).take 15
  match buf.drop method.length with
  | 32 :: p =>
    let path := (p.takeWhile fun c => c ≠ 32 ∧ c ≠ 13).take 255
    match p.drop path.length with
    | 32 :: q => some (method, path, 32 :: q)
    | _ => none
  | _ => none

/-- `http_parse` of all received bytes. -/
def httpParse (raw : List UInt8) : Option HttpRequest :=
  let buf := untilNul raw
  (parseRequestLine buf).map fun (method, path, q) =>
    let r := parseHeaders false q ⟨method, path, [], -1, none, none⟩
    { r.1 with body := raw.drop (buf.length - r.2.length) }

end BitForge.Api
