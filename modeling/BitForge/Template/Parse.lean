/-
The parser of expressions, `chat_template.cpp`, one function for each level of precedence. What it builds is missing where
it is a node that is left out: a call, a filter, a test, a conditional expression.
-/
import BitForge.Template.Lex

namespace BitForge.Template

open BitForge.Lib

/-- A node and the tokens behind it. -/
abbrev Parsed := Option (Node × List Token)

/-- `peek` -/
def peek (ts : List Token) : Token := ts.head?.getD .eof

/-- `if (p.is(t)) p.next()` -/
def skip (t : Token) (ts : List Token) : List Token := if peek ts = t then ts.tail else ts

section Levels

-- the parser of the expressions inside of brackets
variable (inner : List Token → Parsed)

/-- A part of a slice, which may not be there. -/
def parsePart (ends : List Token) (ts : List Token) : Parsed := if peek ts ∈ ends then some (.null, ts) else inner ts

/-- The part behind the second colon, which is a part only if the colon is there. -/
def parseStep (ts : List Token) : Parsed := if peek ts = .colon then parsePart inner [.rbracket] ts.tail else some (.null, ts)

/-- What stands behind an opening bracket, for the object `n`. -/
def parseBracket (n : Node) (ts : List Token) : Parsed := do
  let (start, ts) ← parsePart inner [.colon] ts
  if peek ts = .colon then do
    let (stop, ts) ← parsePart inner [.colon, .rbracket] ts.tail
    let (step, ts) ← parseStep inner ts
    some (.getslice n start stop step, skip .rbracket ts)
  else some (.getitem n start, skip .rbracket ts)

/-- The name of an attribute, and the tokens behind it. -/
def attrName (ts : List Token) : Str × List Token :=
  match ts with
  | .ident s :: ts => (s, ts)
  | .int i :: ts => (ascii (toString i), ts)
  | ts => ([], ts)

/-- The loop over the postfixes. -/
def parsePostfix : Nat → Node → List Token → Parsed
  | 0, n, ts => some (n, ts)
  | fuel + 1, n, ts =>
    match ts with
    | .lbracket :: ts => (parseBracket inner n ts).bind fun p => parsePostfix fuel p.1 p.2
    | .dot :: ts => parsePostfix fuel (.getattr n (attrName ts).1) (attrName ts).2
    | .lparen :: _ => none
    | ts => some (n, ts)

/-- The literal or the variable that a name stands for. -/
def nameNode (s : Str) : Node :=
  if s = ascii "true" ∨ s = ascii "True" then .litBool true
  else if s = ascii "false" ∨ s = ascii "False" then .litBool false
  else if s = ascii "none" ∨ s = ascii "None" then .litNone
  else .ident s

/-- `parse_primary` -/
def parsePrimary (ts : List Token) : Parsed :=
  match ts with
  | .lparen :: ts => (inner ts).map fun p => (p.1, skip .rparen p.2)
  | .str s :: ts => parsePostfix inner ts.length (.litStr s) ts
  | .int i :: ts => parsePostfix inner ts.length (.litInt i) ts
  | .ident s :: ts => parsePostfix inner ts.length (nameNode s) ts
  | ts => some (.litNone, ts)

/-- `parse_filter` -/
def parseFilter (ts : List Token) : Parsed := (parsePrimary inner ts).bind fun p => if peek p.2 = .pipe then none else some p

/-- `parse_unary` -/
def parseUnary (ts : List Token) : Parsed :=
  match ts with
  | .minus :: ts => (parseFilter inner ts).map fun p => (.unop .neg p.1, p.2)
  | ts => parseFilter inner ts

def mulOp : Token → Option BinOp
  | .star => some .mul
  | .slash => some .div
  | .percent => some .mod
  | _ => none

/-- The loop of `parse_mul`. -/
def parseMulLoop : Nat → Node → List Token → Parsed
  | 0, n, ts => some (n, ts)
  | fuel + 1, n, ts =>
    match mulOp (peek ts) with
    | some op => (parseUnary inner ts.tail).bind fun p => parseMulLoop fuel (.binop op n p.1) p.2
    | none => some (n, ts)

/-- `parse_mul` -/
def parseMul (ts : List Token) : Parsed := (parseUnary inner ts).bind fun p => parseMulLoop inner ts.length p.1 p.2

def addOp : Token → Option BinOp
  | .plus => some .add
  | .minus => some .sub
  | .tilde => some .tilde
  | _ => none

/-- The loop of `parse_add`. -/
def parseAddLoop : Nat → Node → List Token → Parsed
  | 0, n, ts => some (n, ts)
  | fuel + 1, n, ts =>
    match addOp (peek ts) with
    | some op => (parseMul inner ts.tail).bind fun p => parseAddLoop fuel (.binop op n p.1) p.2
    | none => some (n, ts)

/-- `parse_add` -/
def parseAdd (ts : List Token) : Parsed := (parseMul inner ts).bind fun p => parseAddLoop inner ts.length p.1 p.2

def compareOp : Token → Option BinOp
  | .eqEq => some .eq
  | .neq => some .ne
  | .lt => some .lt
  | .le => some .le
  | .gt => some .gt
  | .ge => some .ge
  | _ => none

/-- A comparison behind an operand. -/
def parseComparison (n : Node) (ts : List Token) : Parsed :=
  match compareOp (peek ts) with
  | some op => (parseAdd inner ts.tail).map fun p => (.binop op n p.1, p.2)
  | none => some (n, ts)

def keyword (s : String) (ts : List Token) : Bool := peek ts = .ident (ascii s)

/-- A test or a membership behind an operand. -/
def parseMembership (n : Node) (ts : List Token) : Parsed :=
  if keyword "is" ts then none
  else if keyword "not" ts ∧ keyword "in" ts.tail then (parseAdd inner ts.tail.tail).map fun p => (.binop .notIn n p.1, p.2)
  else if keyword "in" ts then (parseAdd inner ts.tail).map fun p => (.binop .isIn n p.1, p.2)
  else some (n, ts)

/-- `parse_compare` -/
def parseCompare (ts : List Token) : Parsed := do
  let (n, ts) ← parseAdd inner ts
  let (n, ts) ← parseComparison inner n ts
  parseMembership inner n ts

/-- `parse_not` -/
def parseNot : List Token → Parsed
  | .ident s :: ts =>
    if s = ascii "not" then (parseNot ts).map fun p => (.unop .not p.1, p.2) else parseCompare inner (.ident s :: ts)
  | ts => parseCompare inner ts

/-- The loops of `parse_and` and `parse_or`: operands with a word between them. -/
def parseWordLoop (operand : List Token → Parsed) (word : String) (op : BinOp) : Nat → Node → List Token → Parsed
  | 0, n, ts => some (n, ts)
  | fuel + 1, n, ts =>
    if keyword word ts then (operand ts.tail).bind fun p => parseWordLoop operand word op fuel (.binop op n p.1) p.2
    else some (n, ts)

/-- `parse_and` -/
def parseAnd (ts : List Token) : Parsed :=
  (parseNot inner ts).bind fun p => parseWordLoop (parseNot inner) "and" .and ts.length p.1 p.2

/-- `parse_or` -/
def parseOr (ts : List Token) : Parsed :=
  (parseAnd inner ts).bind fun p => parseWordLoop (parseAnd inner) "or" .or ts.length p.1 p.2

/-- `parse_expr` over a parser of what is in brackets. -/
def parseLevels (ts : List Token) : Parsed := (parseOr inner ts).bind fun p => if keyword "if" p.2 then none else some p

end Levels

/-- `parse_expr` up to a depth of brackets. -/
def parseDepth : Nat → List Token → Parsed
  | 0 => fun _ => none
  | depth + 1 => parseLevels (parseDepth depth)

/-- `parse_expr`: brackets are no deeper than there are tokens. -/
def parseExpr (ts : List Token) : Parsed := parseDepth (ts.length + 1) ts

end BitForge.Template
