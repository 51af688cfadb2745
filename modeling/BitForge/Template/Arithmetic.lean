/-
Arithmetic in templates, `chat_template.cpp`: the grammar of sums and products, what they are worth, and when the value that
the lexer, the parser and the evaluator make of their text is that.
-/
import BitForge.Template.Parse
import Mathlib.Algebra.Order.Floor.Ring
import Mathlib.Data.Rat.Floor
import Mathlib.Tactic

namespace BitForge.Template

open BitForge.Lib

/-! ## The grammar -/

inductive SumOp where
  | add
  | sub
deriving DecidableEq, Repr

inductive ProductOp where
  | mul
  | div
  | floordiv
  | mod
deriving DecidableEq, Repr

inductive Level where
  | primary
  | unary
  | product
  | sum

/-- Expressions of numbers and variables, with the level of precedence that they are at. Operators of one level group to
the left. -/
inductive Arith : Level → Type
  | lit (i : Int) (h : 0 ≤ i ∧ i < 2 ^ 63) : Arith .primary
  | var (name : Str) (h : IsName name) : Arith .primary
  | paren (e : Arith .sum) : Arith .primary
  | primary (e : Arith .primary) : Arith .unary
  | neg (e : Arith .unary) : Arith .unary
  | unary (e : Arith .unary) : Arith .product
  | times (op : ProductOp) (l : Arith .product) (r : Arith .unary) : Arith .product
  | product (e : Arith .product) : Arith .sum
  | plus (op : SumOp) (l : Arith .sum) (r : Arith .product) : Arith .sum

def SumOp.token : SumOp → Token
  | .add => .plus
  | .sub => .minus

def ProductOp.tokens : ProductOp → List Token
  | .mul => [.star]
  | .div => [.slash]
  | .floordiv => [.slash, .slash]
  | .mod => [.percent]

def Arith.tokens {k : Level} : Arith k → List Token
  | .lit i _ => [.int i]
  | .var name _ => [.ident name]
  | .paren e => .lparen :: e.tokens ++ [.rparen]
  | .primary e => e.tokens
  | .neg e => .minus :: e.tokens
  | .unary e => e.tokens
  | .times op l r => l.tokens ++ op.tokens ++ r.tokens
  | .product e => e.tokens
  | .plus op l r => l.tokens ++ op.token :: r.tokens

/-! ## The values of Jinja -/

def SumOp.apply (a b : ℚ) : SumOp → ℚ
  | .add => a + b
  | .sub => a - b

/-- Division by zero is an error. -/
def ProductOp.apply (a b : ℚ) : ProductOp → Option ℚ
  | .mul => some (a * b)
  | .div => if b = 0 then none else some (a / b)
  | .floordiv => if b = 0 then none else some ⌊a / b⌋
  | .mod => if b = 0 then none else some (a - b * ⌊a / b⌋)

def Arith.jinja (env : Str → Int) {k : Level} : Arith k → Option ℚ
  | .lit i _ => some i
  | .var name _ => some (env name)
  | .paren e => e.jinja env
  | .primary e => e.jinja env
  | .neg e => (e.jinja env).map (- ·)
  | .unary e => e.jinja env
  | .times op l r => (l.jinja env).bind fun a => (r.jinja env).bind fun b => op.apply a b
  | .product e => e.jinja env
  | .plus op l r => (l.jinja env).bind fun a => (r.jinja env).map fun b => op.apply a b

/-! ## The law -/

/-- The value of the expression at the start of the text of a tag: what `eval` makes of what `parse_expr` builds. -/
def tagValue (get : Str → Value) (isExpr : Bool) (text : Str) : Option Value := do
  let (ts, _) ← lexTag isExpr (text.length + 1) text
  let (n, _) ← parseExpr ts
  eval get n

/-- What is computed has a value, with no overflow on the way, and it is that of Jinja where that is an integer of
64 bits. -/
def ComputesJinja (value : Option Value) (jinja : Option ℚ) : Prop :=
  value.isSome = true ∧ ∀ v : Int, Value.inRange v = true → jinja = some (v : ℚ) → value = some (.int v)

/-! ## When it holds -/

/-- A product of two numbers that is computed as in Jinja: an exact quotient, a remainder of a multiple or of numbers of
one sign. Nothing is said about a division by zero. -/
def ProductOp.Agrees (a b : Int) : ProductOp → Prop
  | .mul => Value.inRange (a * b) = true
  | .div => b = 0 ∨ (b ∣ a ∧ Value.inRange (a.tdiv b) = true)
  | .floordiv => False
  | .mod => b = 0 ∨ ((b ∣ a ∨ 0 < a * b) ∧ Value.inRange (a.tdiv b) = true)

def SumOp.Agrees (a b : Int) : SumOp → Prop
  | .add => False
  | .sub => Value.inRange (a - b) = true

def Arith.isNeg {k : Level} : Arith k → Bool
  | .neg _ => true
  | _ => false

/-- No minus stands directly before another. -/
def Arith.SingleMinus {k : Level} : Arith k → Prop
  | .lit _ _ => True
  | .var _ _ => True
  | .paren e => e.SingleMinus
  | .primary e => e.SingleMinus
  | .neg e => e.SingleMinus ∧ e.isNeg = false
  | .unary e => e.SingleMinus
  | .times _ l r => l.SingleMinus ∧ r.SingleMinus
  | .product e => e.SingleMinus
  | .plus _ l r => l.SingleMinus ∧ r.SingleMinus

/-- Each operator is applied to numbers that it agrees on. -/
def Arith.Agrees (env : Str → Int) {k : Level} : Arith k → Prop
  | .lit _ _ => True
  | .var _ _ => True
  | .paren e => e.Agrees env
  | .primary e => e.Agrees env
  | .neg e => e.Agrees env ∧ ∀ a : Int, e.jinja env = some (a : ℚ) → Value.inRange (-a) = true
  | .unary e => e.Agrees env
  | .times op l r => (l.Agrees env ∧ r.Agrees env) ∧
      ∀ a b : Int, l.jinja env = some (a : ℚ) → r.jinja env = some (b : ℚ) → op.Agrees a b
  | .product e => e.Agrees env
  | .plus op l r => (l.Agrees env ∧ r.Agrees env) ∧
      ∀ a b : Int, l.jinja env = some (a : ℚ) → r.jinja env = some (b : ℚ) → op.Agrees a b

/-- A sum or a floor division is somewhere in the expression. -/
def Arith.HasSum {k : Level} : Arith k → Prop
  | .lit _ _ => False
  | .var _ _ => False
  | .paren e => e.HasSum
  | .primary e => e.HasSum
  | .neg e => e.HasSum
  | .unary e => e.HasSum
  | .times op l r => op = .floordiv ∨ l.HasSum ∨ r.HasSum
  | .product e => e.HasSum
  | .plus op l r => op = .add ∨ l.HasSum ∨ r.HasSum

/-- The result of an operator, or the quotient behind a remainder, does not fit. -/
def ProductOp.Overflows (a b : Int) : ProductOp → Prop
  | .mul => Value.inRange (a * b) = false
  | .div => b ≠ 0 ∧ Value.inRange (a.tdiv b) = false
  | .floordiv => False
  | .mod => b ≠ 0 ∧ Value.inRange (a.tdiv b) = false

def SumOp.Overflows (a b : Int) : SumOp → Prop
  | .add => False
  | .sub => Value.inRange (a - b) = false

/-- Somewhere an operator overflows on numbers that were computed as in Jinja. -/
def Arith.Overflows (env : Str → Int) {k : Level} : Arith k → Prop
  | .lit _ _ => False
  | .var _ _ => False
  | .paren e => e.Overflows env
  | .primary e => e.Overflows env
  | .neg e => e.Overflows env ∨ e.Agrees env ∧ ∃ a : Int, e.jinja env = some (a : ℚ) ∧ Value.inRange (-a) = false
  | .unary e => e.Overflows env
  | .times op l r => l.Overflows env ∨ r.Overflows env ∨ (l.Agrees env ∧ r.Agrees env) ∧
      ∃ a b : Int, l.jinja env = some (a : ℚ) ∧ r.jinja env = some (b : ℚ) ∧ op.Overflows a b
  | .product e => e.Overflows env
  | .plus op l r => l.Overflows env ∨ r.Overflows env ∨ (l.Agrees env ∧ r.Agrees env) ∧
      ∃ a b : Int, l.jinja env = some (a : ℚ) ∧ r.jinja env = some (b : ℚ) ∧ op.Overflows a b

/-- The variables. -/
def Arith.names {k : Level} : Arith k → List Str
  | .lit _ _ => []
  | .var name _ => [name]
  | .paren e => e.names
  | .primary e => e.names
  | .neg e => e.names
  | .unary e => e.names
  | .times _ l r => l.names ++ r.names
  | .product e => e.names
  | .plus _ l r => l.names ++ r.names

/-! ## What is parsed -/

def SumOp.node (l r : Node) : SumOp → Node
  | .add => .binop .add l r
  | .sub => .binop .sub l r

/-- The two slashes are two divisions. -/
def ProductOp.node (l r : Node) : ProductOp → Node
  | .mul => .binop .mul l r
  | .div => .binop .div l r
  | .floordiv => .binop .div (.binop .div l .litNone) r
  | .mod => .binop .mod l r

def Arith.node {k : Level} : Arith k → Node
  | .lit i _ => .litInt i
  | .var name _ => .ident name
  | .paren e => e.node
  | .primary e => e.node
  | .neg e => .unop .neg e.node
  | .unary e => e.node
  | .times op l r => op.node l.node r.node
  | .product e => e.node
  | .plus op l r => op.node l.node r.node

/-- How deep the brackets are. -/
def Arith.depth {k : Level} : Arith k → Nat
  | .lit _ _ => 0
  | .var _ _ => 0
  | .paren e => e.depth + 1
  | .primary e => e.depth
  | .neg e => e.depth
  | .unary e => e.depth
  | .times _ l r => max l.depth r.depth
  | .product e => e.depth
  | .plus _ l r => max l.depth r.depth

/-- The tokens behind which an expression ends. -/
def Token.endsExpr (t : Token) : Bool := t ∈ [Token.rparen, .exprClose, .stmtClose, .rbracket, .comma, .colon, .eof]

/-- The tokens that are no postfix and no filter. -/
def Token.endsPostfix (t : Token) : Bool := t ∉ [Token.lbracket, .dot, .lparen, .pipe]

theorem endsPostfix_of_endsExpr {t : Token} (h : t.endsExpr = true) : t.endsPostfix = true := by
  revert h
  cases t <;> simp [Token.endsExpr, Token.endsPostfix]

theorem parsePostfix_stop (inner : List Token → Parsed) (fuel : Nat) (n : Node) {ts : List Token}
    (h : (peek ts).endsPostfix = true) : parsePostfix inner fuel n ts = some (n, ts) := by
  cases fuel with
  | zero => rfl
  | succ fuel =>
    cases ts with
    | nil => rfl
    | cons t ts =>
      cases t <;> first | rfl | exact absurd h (by simp [peek, Token.endsPostfix])

theorem nameNode_of_name {s : Str} (h : IsName s) : nameNode s = .ident s := by
  obtain ⟨-, -, hres⟩ := h
  simp only [reserved, List.mem_cons, List.not_mem_nil, or_false, not_or] at hres
  unfold nameNode
  rw [if_neg (by tauto), if_neg (by tauto), if_neg (by tauto)]

section Levels

variable {inner : List Token → Parsed} {depth : Nat}

/-- The parser of what is in brackets reads the expressions of less depth. -/
def Reads (inner : List Token → Parsed) (depth : Nat) : Prop :=
  ∀ e : Arith .sum, e.SingleMinus → e.depth < depth → ∀ rest, (peek rest).endsExpr = true →
    inner (e.tokens ++ rest) = some (e.node, rest)

theorem parsePrimary_tokens (hinner : Reads inner depth) : ∀ (e : Arith .primary), e.SingleMinus → e.depth ≤ depth →
    ∀ {rest : List Token}, (peek rest).endsPostfix = true → parsePrimary inner (e.tokens ++ rest) = some (e.node, rest)
  | .lit i _, _, _, rest, hrest => parsePostfix_stop inner _ _ hrest
  | .var name hname, _, _, rest, hrest => by
    change parsePostfix inner rest.length (nameNode name) rest = _
    rw [nameNode_of_name hname]
    exact parsePostfix_stop inner _ _ hrest
  | .paren e, hminus, hdepth, rest, _ => by
    have hread := hinner e hminus hdepth (.rparen :: rest) rfl
    change (inner (e.tokens ++ [.rparen] ++ rest)).map _ = _
    rw [List.append_assoc, List.singleton_append, hread]
    rfl

theorem parseFilter_tokens (hinner : Reads inner depth) {e : Arith .primary} (hminus : e.SingleMinus)
    (hdepth : e.depth ≤ depth) {rest : List Token} (hrest : (peek rest).endsPostfix = true) :
    parseFilter inner (e.tokens ++ rest) = some (e.node, rest) := by
  unfold parseFilter
  rw [parsePrimary_tokens hinner e hminus hdepth hrest, Option.bind_some, if_neg]
  intro hpipe
  dsimp only at hpipe
  rw [hpipe] at hrest
  cases hrest

theorem parseUnary_of_ne {ts : List Token} (h : peek ts ≠ .minus) : parseUnary inner ts = parseFilter inner ts := by
  cases ts with
  | nil => rfl
  | cons t ts =>
    cases t <;> first | rfl | exact absurd rfl h

theorem primary_head (e : Arith .primary) (rest : List Token) : peek (e.tokens ++ rest) ≠ .minus := by
  cases e with
  | lit i h => simp [peek, Arith.tokens]
  | var name h => simp [peek, Arith.tokens]
  | paren e => simp [peek, Arith.tokens]

theorem parseUnary_tokens (hinner : Reads inner depth) : ∀ (e : Arith .unary), e.SingleMinus → e.depth ≤ depth →
    ∀ {rest : List Token}, (peek rest).endsPostfix = true → parseUnary inner (e.tokens ++ rest) = some (e.node, rest)
  | .primary e, hminus, hdepth, rest, hrest => by
    change parseUnary inner (e.tokens ++ rest) = _
    rw [parseUnary_of_ne (primary_head e rest)]
    exact parseFilter_tokens hinner hminus hdepth hrest
  | .neg (.primary e), hminus, hdepth, rest, hrest => by
    change (parseFilter inner (e.tokens ++ rest)).map _ = _
    rw [parseFilter_tokens hinner hminus.1 hdepth hrest]
    rfl
  | .neg (.neg e), hminus, _, _, _ => by
    cases hminus.2

/-- The fallback of `parse_primary` takes no token. -/
theorem parseUnary_slash (inner : List Token → Parsed) (ts : List Token) :
    parseUnary inner (.slash :: ts) = some (.litNone, .slash :: ts) := rfl

/-- The loop of `parse_mul` at a sign. -/
theorem parseMulLoop_op {fuel : Nat} {n m : Node} {t : Token} {op : BinOp} {ts rest : List Token} (hop : mulOp t = some op)
    (h : parseUnary inner ts = some (m, rest)) :
    parseMulLoop inner (fuel + 1) n (t :: ts) = parseMulLoop inner fuel (.binop op n m) rest := by
  rw [parseMulLoop]
  simp [peek, hop, h]

/-- A product is read by the first operand and the rounds of the loop. -/
theorem parseMul_tokens (hinner : Reads inner depth) : ∀ (e : Arith .product), e.SingleMinus → e.depth ≤ depth →
    ∀ {rest : List Token} {fuel : Nat}, (peek rest).endsPostfix = true → (e.tokens ++ rest).length ≤ fuel →
      ∃ left, rest.length ≤ left ∧
        ((parseUnary inner (e.tokens ++ rest)).bind fun p => parseMulLoop inner fuel p.1 p.2) =
          parseMulLoop inner left e.node rest
  | .unary e, hminus, hdepth, rest, fuel, hrest, hfuel => by
    refine ⟨fuel, ?_, ?_⟩
    · rw [List.length_append] at hfuel
      omega
    · change ((parseUnary inner (e.tokens ++ rest)).bind _) = _
      rw [parseUnary_tokens hinner e hminus hdepth hrest]
      rfl
  | .times op l r, hminus, hdepth, rest, fuel, hrest, hfuel => by
    have hassoc : (Arith.times op l r).tokens ++ rest = l.tokens ++ (op.tokens ++ (r.tokens ++ rest)) := by
      simp [Arith.tokens]
    have hop : (peek (op.tokens ++ (r.tokens ++ rest))).endsPostfix = true := by
      cases op <;> rfl
    rw [hassoc] at hfuel
    obtain ⟨left, hleft, heq⟩ := parseMul_tokens hinner l hminus.1 ((le_max_left _ _).trans hdepth) hop hfuel
    have hr := parseUnary_tokens hinner r hminus.2 ((le_max_right _ _).trans hdepth) hrest
    rw [hassoc, heq]
    rw [List.length_append, List.length_append] at hleft
    cases op with
    | mul | div | mod =>
      obtain ⟨left, rfl⟩ : ∃ k, left = k + 1 := ⟨left - 1, by simp [ProductOp.tokens] at hleft; omega⟩
      exact ⟨left, by simp [ProductOp.tokens] at hleft; omega, parseMulLoop_op rfl hr⟩
    | floordiv =>
      obtain ⟨left, rfl⟩ : ∃ k, left = k + 2 := ⟨left - 2, by simp [ProductOp.tokens] at hleft; omega⟩
      refine ⟨left, by simp [ProductOp.tokens] at hleft; omega, ?_⟩
      exact (parseMulLoop_op rfl (parseUnary_slash inner _)).trans (parseMulLoop_op rfl hr)

theorem parseMul_eq (hinner : Reads inner depth) {e : Arith .product} (hminus : e.SingleMinus) (hdepth : e.depth ≤ depth)
    {rest : List Token} (hrest : (peek rest).endsPostfix = true) (hstop : mulOp (peek rest) = none) :
    parseMul inner (e.tokens ++ rest) = some (e.node, rest) := by
  obtain ⟨left, -, heq⟩ := parseMul_tokens hinner e hminus hdepth hrest (le_refl _)
  unfold parseMul
  rw [heq]
  cases left with
  | zero => rfl
  | succ left =>
    rw [parseMulLoop, hstop]

theorem parseAddLoop_op {fuel : Nat} {n m : Node} {t : Token} {op : BinOp} {ts rest : List Token} (hop : addOp t = some op)
    (h : parseMul inner ts = some (m, rest)) :
    parseAddLoop inner (fuel + 1) n (t :: ts) = parseAddLoop inner fuel (.binop op n m) rest := by
  rw [parseAddLoop]
  simp [peek, hop, h]

/-- A sum is read by the first operand and the rounds of the loop. -/
theorem parseAdd_tokens (hinner : Reads inner depth) : ∀ (e : Arith .sum), e.SingleMinus → e.depth ≤ depth →
    ∀ {rest : List Token} {fuel : Nat}, (peek rest).endsPostfix = true → mulOp (peek rest) = none →
      (e.tokens ++ rest).length ≤ fuel → ∃ left, rest.length ≤ left ∧
        ((parseMul inner (e.tokens ++ rest)).bind fun p => parseAddLoop inner fuel p.1 p.2) =
          parseAddLoop inner left e.node rest
  | .product e, hminus, hdepth, rest, fuel, hrest, hstop, hfuel => by
    refine ⟨fuel, ?_, ?_⟩
    · rw [List.length_append] at hfuel
      omega
    · change ((parseMul inner (e.tokens ++ rest)).bind _) = _
      rw [parseMul_eq hinner hminus hdepth hrest hstop]
      rfl
  | .plus op l r, hminus, hdepth, rest, fuel, hrest, hstop, hfuel => by
    have hassoc : (Arith.plus op l r).tokens ++ rest = l.tokens ++ op.token :: (r.tokens ++ rest) := by
      simp [Arith.tokens]
    have hop : (peek (op.token :: (r.tokens ++ rest))).endsPostfix = true ∧
        mulOp (peek (op.token :: (r.tokens ++ rest))) = none := by
      cases op <;> exact ⟨rfl, rfl⟩
    rw [hassoc] at hfuel
    obtain ⟨left, hleft, heq⟩ := parseAdd_tokens hinner l hminus.1 ((le_max_left _ _).trans hdepth) hop.1 hop.2 hfuel
    have hr := parseMul_eq hinner hminus.2 ((le_max_right _ _).trans hdepth) hrest hstop
    rw [List.length_cons, List.length_append] at hleft
    obtain ⟨left, rfl⟩ : ∃ k, left = k + 1 := ⟨left - 1, by omega⟩
    refine ⟨left, by omega, ?_⟩
    rw [hassoc, heq]
    cases op with
    | add => exact parseAddLoop_op rfl hr
    | sub => exact parseAddLoop_op rfl hr

/-- Behind an expression no other level goes on. -/
theorem endsExpr_stops {t : Token} (h : t.endsExpr = true) :
    mulOp t = none ∧ addOp t = none ∧ compareOp t = none ∧ ∀ s, t ≠ .ident s := by
  revert h
  cases t <;> simp [Token.endsExpr, mulOp, addOp, compareOp]

theorem parseAdd_eq (hinner : Reads inner depth) {e : Arith .sum} (hminus : e.SingleMinus) (hdepth : e.depth ≤ depth)
    {rest : List Token} (hrest : (peek rest).endsExpr = true) : parseAdd inner (e.tokens ++ rest) = some (e.node, rest) := by
  obtain ⟨hmul, hadd, -, -⟩ := endsExpr_stops hrest
  obtain ⟨left, -, heq⟩ := parseAdd_tokens hinner e hminus hdepth (endsPostfix_of_endsExpr hrest) hmul (le_refl _)
  unfold parseAdd
  rw [heq]
  cases left with
  | zero => rfl
  | succ left =>
    rw [parseAddLoop, hadd]

theorem keyword_stop {rest : List Token} (hrest : (peek rest).endsExpr = true) (s : String) : keyword s rest = false := by
  unfold keyword
  rw [decide_eq_false_iff_not]
  exact (endsExpr_stops hrest).2.2.2 _

theorem parseCompare_eq (hinner : Reads inner depth) {e : Arith .sum} (hminus : e.SingleMinus) (hdepth : e.depth ≤ depth)
    {rest : List Token} (hrest : (peek rest).endsExpr = true) :
    parseCompare inner (e.tokens ++ rest) = some (e.node, rest) := by
  have hcompare : parseComparison inner e.node rest = some (e.node, rest) := by
    unfold parseComparison
    rw [(endsExpr_stops hrest).2.2.1]
  have hmember : parseMembership inner e.node rest = some (e.node, rest) := by
    unfold parseMembership
    simp [keyword_stop hrest]
  unfold parseCompare
  rw [parseAdd_eq hinner hminus hdepth hrest]
  change ((parseComparison inner e.node rest).bind fun p => parseMembership inner p.1 p.2) = _
  rw [hcompare]
  exact hmember

theorem Arith.head_ne {k : Level} : ∀ (e : Arith k) (rest : List Token), peek (e.tokens ++ rest) ≠ .ident (ascii "not")
  | .lit _ _, _ => by simp [peek, tokens]
  | .var name hname, rest => by
    obtain ⟨-, -, hres⟩ := hname
    intro heq
    have hnot : name = ascii "not" := by simpa [peek, tokens] using heq
    apply hres
    rw [hnot]
    simp [reserved]
  | .paren _, _ => by simp [peek, tokens]
  | .primary e, rest => e.head_ne rest
  | .neg _, _ => by simp [peek, tokens]
  | .unary e, rest => e.head_ne rest
  | .times op l r, rest => by
    rw [tokens, List.append_assoc, List.append_assoc]
    exact l.head_ne _
  | .product e, rest => e.head_ne rest
  | .plus op l r, rest => by
    rw [tokens, List.append_assoc]
    exact l.head_ne _

theorem parseNot_of_ne {ts : List Token} (h : peek ts ≠ .ident (ascii "not")) : parseNot inner ts = parseCompare inner ts := by
  cases ts with
  | nil => rfl
  | cons t ts =>
    cases t with
    | ident s =>
      have hs : s ≠ ascii "not" := by
        rintro rfl
        exact h rfl
      rw [parseNot, if_neg hs]
    | _ => rfl

theorem parseWordLoop_stop (operand : List Token → Parsed) (word : String) (op : BinOp) (fuel : Nat) (n : Node)
    {rest : List Token} (hrest : (peek rest).endsExpr = true) :
    parseWordLoop operand word op fuel n rest = some (n, rest) := by
  cases fuel with
  | zero => rfl
  | succ fuel =>
    rw [parseWordLoop, keyword_stop hrest]
    rfl

theorem parseLevels_eq (hinner : Reads inner depth) {e : Arith .sum} (hminus : e.SingleMinus) (hdepth : e.depth ≤ depth)
    {rest : List Token} (hrest : (peek rest).endsExpr = true) :
    parseLevels inner (e.tokens ++ rest) = some (e.node, rest) := by
  have hnot : parseNot inner (e.tokens ++ rest) = some (e.node, rest) := by
    rw [parseNot_of_ne (e.head_ne rest)]
    exact parseCompare_eq hinner hminus hdepth hrest
  have hand : parseAnd inner (e.tokens ++ rest) = some (e.node, rest) := by
    unfold parseAnd
    rw [hnot, Option.bind_some]
    exact parseWordLoop_stop _ _ _ _ _ hrest
  have hor : parseOr inner (e.tokens ++ rest) = some (e.node, rest) := by
    unfold parseOr
    rw [hand, Option.bind_some]
    exact parseWordLoop_stop _ _ _ _ _ hrest
  unfold parseLevels
  rw [hor, Option.bind_some, keyword_stop hrest]
  rfl

end Levels

/-- Brackets are read as deep as they are counted. -/
theorem reads_parseDepth : ∀ depth : Nat, Reads (parseDepth depth) depth
  | 0 => fun _ _ h => absurd h (Nat.not_lt_zero _)
  | depth + 1 => fun _ hminus hdepth _ hrest =>
    parseLevels_eq (reads_parseDepth depth) hminus (Nat.le_of_lt_succ hdepth) hrest

theorem Arith.depth_le {k : Level} : ∀ e : Arith k, e.depth ≤ e.tokens.length
  | .lit _ _ => Nat.zero_le _
  | .var _ _ => Nat.zero_le _
  | .paren e => by
    have := e.depth_le
    simp only [depth, tokens, List.length_append, List.length_cons]
    omega
  | .primary e => e.depth_le
  | .neg e => by
    have := e.depth_le
    simp only [depth, tokens, List.length_cons]
    omega
  | .unary e => e.depth_le
  | .times op l r => by
    have := l.depth_le
    have := r.depth_le
    simp only [depth, tokens, List.length_append]
    omega
  | .product e => e.depth_le
  | .plus op l r => by
    have := l.depth_le
    have := r.depth_le
    simp only [depth, tokens, List.length_append, List.length_cons]
    omega

/-- The parser builds the nodes of the expression. -/
theorem parseExpr_tokens {e : Arith .sum} (hminus : e.SingleMinus) {rest : List Token} (hrest : (peek rest).endsExpr = true) :
    parseExpr (e.tokens ++ rest) = some (e.node, rest) := by
  apply reads_parseDepth _ e hminus _ rest hrest
  have := e.depth_le
  rw [List.length_append]
  omega

/-! ## What is computed -/

variable {env : Str → Int} {get : Str → Value}

/-- A value is the number that Jinja computes, or none is a number: here a division by zero has failed. -/
def Faithful (value : Option Value) (jinja : Option ℚ) : Prop :=
  (∃ v : Int, Value.inRange v = true ∧ jinja = some (v : ℚ) ∧ value = some (.int v)) ∨
    (jinja = none ∧ ∃ v, value = some v ∧ ∀ i, v ≠ .int i)

/-- A value that is no number, or none because of an overflow. -/
def NoNumber (value : Option Value) : Prop := ∀ i, value ≠ some (.int i)

theorem faithful_number {v : Int} (h : Value.inRange v = true) {q : ℚ} (hq : q = v) : Faithful (checked v) (some q) := by
  left
  refine ⟨v, h, by rw [hq], ?_⟩
  unfold checked
  rw [if_pos h]

theorem faithful_error {value : Value} (h : ∀ i, value ≠ .int i) : Faithful (some value) none := .inr ⟨rfl, value, rfl, h⟩

/-- The arithmetic of `eval` on values of which one is no number. -/
theorem binop_undefined {op : BinOp} (hop : op ∈ [BinOp.sub, .mul, .div, .mod]) {x y : Value}
    (h : (∀ i, x ≠ .int i) ∨ ∀ i, y ≠ .int i) : binop op x y = some .undefined := by
  have hnot : ¬ ∃ a b, x = .int a ∧ y = .int b := by
    rintro ⟨a, b, hx, hy⟩
    rcases h with h | h
    · exact h a hx
    · exact h b hy
  simp only [List.mem_cons, List.not_mem_nil, or_false] at hop
  rcases hop with rfl | rfl | rfl | rfl <;> cases x <;> cases y <;> first | rfl | exact absurd ⟨_, _, rfl, rfl⟩ hnot

/-- The floor of a quotient, from a remainder that has the sign of the divisor. -/
theorem floor_div_eq {a b q r : Int} (hb : b ≠ 0) (h : a = b * q + r) (hr : (0 ≤ r ∧ r < b) ∨ (b < r ∧ r ≤ 0)) :
    ⌊(a : ℚ) / b⌋ = q := by
  have hb' : (b : ℚ) ≠ 0 := by exact_mod_cast hb
  have hquot : (a : ℚ) / b = q + r / b := by
    rw [h]
    push_cast
    field_simp
  rw [hquot, Int.floor_intCast_add]
  have hfloor : ⌊(r : ℚ) / b⌋ = 0 := by
    rw [Int.floor_eq_zero_iff, Set.mem_Ico]
    rcases hr with ⟨hlo, hhi⟩ | ⟨hlo, hhi⟩
    · have hlo' : (0 : ℚ) ≤ r := by exact_mod_cast hlo
      have hhi' : (r : ℚ) < b := by exact_mod_cast hhi
      have hpos : (0 : ℚ) < b := by linarith
      exact ⟨div_nonneg hlo' hpos.le, (div_lt_one hpos).2 hhi'⟩
    · have hlo' : (b : ℚ) < r := by exact_mod_cast hlo
      have hhi' : (r : ℚ) ≤ 0 := by exact_mod_cast hhi
      have hneg : (b : ℚ) < 0 := by linarith
      exact ⟨div_nonneg_of_nonpos hhi' hneg.le, (div_lt_one_of_neg hneg).2 hlo'⟩
  omega

/-- The remainder of C has the sign of the dividend. -/
theorem tmod_side {a b : Int} (hb : b ≠ 0) (h : b ∣ a ∨ 0 < a * b) :
    (0 ≤ a.tmod b ∧ a.tmod b < b) ∨ (b < a.tmod b ∧ a.tmod b ≤ 0) := by
  rcases h with h | h
  · rw [Int.tmod_eq_zero_of_dvd h]
    omega
  · rcases lt_or_gt_of_ne hb with hneg | hpos
    · have ha : a < 0 := by nlinarith
      right
      have hmod : (-a).tmod (-b) = -(a.tmod b) := by rw [Int.neg_tmod, Int.tmod_neg]
      have hlo := Int.tmod_nonneg (-b) (show 0 ≤ -a by omega)
      have hhi := Int.tmod_lt_of_pos (-a) (show 0 < -b by omega)
      omega
    · have ha : 0 < a := by nlinarith
      exact .inl ⟨Int.tmod_nonneg b ha.le, Int.tmod_lt_of_pos a hpos⟩

/-- An operator on the values of its operands. -/
def ProductOp.compute (x y : Value) : ProductOp → Option Value
  | .mul => binop .mul x y
  | .div => binop .div x y
  | .floordiv => some .undefined
  | .mod => binop .mod x y

def SumOp.compute (x y : Value) : SumOp → Option Value
  | .add => binop .add x y
  | .sub => binop .sub x y

theorem eval_times (op : ProductOp) (l r : Node) :
    eval get (op.node l r) = (eval get l).bind fun x => (eval get r).bind fun y => op.compute x y := by
  cases op with
  | mul => rfl
  | div => rfl
  | mod => rfl
  | floordiv =>
    change ((eval get l).bind fun x => binop .div x .none).bind (fun z => (eval get r).bind fun y => binop .div z y) = _
    cases eval get l with
    | none => rfl
    | some x =>
      cases hr : eval get r with
      | none =>
        rw [Option.bind_some, @binop_undefined .div (by simp) x .none (.inr fun _ h => nomatch h)]
        rfl
      | some y =>
        rw [Option.bind_some, @binop_undefined .div (by simp) x .none (.inr fun _ h => nomatch h), Option.bind_some,
          Option.bind_some, @binop_undefined .div (by simp) .undefined y (.inl fun _ h => nomatch h)]
        rfl

theorem eval_plus (op : SumOp) (l r : Node) :
    eval get (op.node l r) = (eval get l).bind fun x => (eval get r).bind fun y => op.compute x y := by
  cases op <;> rfl

/-- On two numbers an operator that agrees gives the value of Jinja, or fails where Jinja does. -/
theorem ProductOp.faithful {a b : Int} (hb : Value.inRange b = true) {op : ProductOp} (h : op.Agrees a b) :
    Faithful (op.compute (.int a) (.int b)) (op.apply a b) := by
  cases op with
  | mul => exact faithful_number h (by push_cast; rfl)
  | floordiv => exact h.elim
  | div =>
    by_cases hzero : b = 0
    · subst hzero
      exact faithful_error nofun
    · obtain ⟨hdvd, hrange⟩ := h.resolve_left hzero
      have hzero' : (b : ℚ) ≠ 0 := by exact_mod_cast hzero
      change Faithful (if b = 0 then some .undefined else checked (a.tdiv b)) (if (b : ℚ) = 0 then none else some (a / b))
      rw [if_neg hzero, if_neg hzero']
      apply faithful_number hrange
      obtain ⟨c, rfl⟩ := hdvd
      rw [Int.mul_tdiv_cancel_left _ hzero]
      push_cast
      field_simp
  | mod =>
    by_cases hzero : b = 0
    · subst hzero
      exact faithful_error nofun
    · obtain ⟨hsign, hrange⟩ := h.resolve_left hzero
      have hzero' : (b : ℚ) ≠ 0 := by exact_mod_cast hzero
      have hside := tmod_side hzero hsign
      have hfloor := floor_div_eq hzero (Int.mul_tdiv_add_tmod a b).symm hside
      change Faithful (if b = 0 then some .undefined else if Value.inRange (a.tdiv b) then checked (a.tmod b) else none)
        (if (b : ℚ) = 0 then none else some (a - b * ⌊(a : ℚ) / b⌋))
      rw [if_neg hzero, if_pos hrange, if_neg hzero', hfloor]
      apply faithful_number
      · simp only [Value.inRange, Bool.and_eq_true, decide_eq_true_eq] at hb ⊢
        omega
      · have hdiv := Int.mul_tdiv_add_tmod a b
        have hcast : (b : ℚ) * (a.tdiv b : ℚ) + (a.tmod b : ℚ) = a := by exact_mod_cast hdiv
        linarith

theorem SumOp.faithful {a b : Int} {op : SumOp} (h : op.Agrees a b) :
    Faithful (op.compute (.int a) (.int b)) (some (op.apply a b)) := by
  cases op with
  | add => exact h.elim
  | sub => exact faithful_number h (by push_cast; rfl)

theorem ProductOp.compute_nonint {op : ProductOp} {x y : Value} (h : (∀ i, x ≠ .int i) ∨ ∀ i, y ≠ .int i) :
    op.compute x y = some .undefined := by
  cases op with
  | floordiv => rfl
  | mul =>
    change binop .mul x y = _
    exact binop_undefined (by simp) h
  | div =>
    change binop .div x y = _
    exact binop_undefined (by simp) h
  | mod =>
    change binop .mod x y = _
    exact binop_undefined (by simp) h

theorem SumOp.compute_nonint {op : SumOp} {x y : Value} (h : (∀ i, x ≠ .int i) ∨ ∀ i, y ≠ .int i) :
    ∃ v, op.compute x y = some v ∧ ∀ i, v ≠ .int i := by
  cases op with
  | add => exact ⟨_, rfl, fun _ h => nomatch h⟩
  | sub =>
    change ∃ v, binop .sub x y = some v ∧ _
    exact ⟨.undefined, binop_undefined (by simp) h, fun _ h => nomatch h⟩

/-- Where the operators agree, the evaluator computes the value of Jinja. -/
theorem eval_faithful {k : Level} : ∀ (e : Arith k), (∀ name ∈ e.names, get name = .int (env name) ∧
    Value.inRange (env name) = true) → e.Agrees env → Faithful (eval get e.node) (e.jinja env)
  | .lit i hi, _, _ => by
    refine .inl ⟨i, ?_, rfl, rfl⟩
    simp only [Value.inRange, Bool.and_eq_true, decide_eq_true_eq]
    omega
  | .var name _, hget, _ => by
    obtain ⟨hval, hrange⟩ := hget name List.mem_cons_self
    exact .inl ⟨env name, hrange, rfl, congrArg some hval⟩
  | .paren e, hget, h => eval_faithful e hget h
  | .primary e, hget, h => eval_faithful e hget h
  | .neg e, hget, h => by
    change Faithful ((eval get e.node).bind (unop .neg)) ((e.jinja env).map (- ·))
    rcases eval_faithful e hget h.1 with ⟨v, -, hj, hv⟩ | ⟨hj, v, hv, hnot⟩
    · rw [hv, hj]
      exact faithful_number (h.2 v hj) (by push_cast; rfl)
    · rw [hv, hj]
      cases v with
      | int i => exact absurd rfl (hnot i)
      | _ => exact faithful_error nofun
  | .unary e, hget, h => eval_faithful e hget h
  | .times op l r, hget, ⟨⟨hl, hr⟩, hop⟩ => by
    have hl := eval_faithful l (fun name hname => hget name (List.mem_append_left _ hname)) hl
    have hr := eval_faithful r (fun name hname => hget name (List.mem_append_right _ hname)) hr
    change Faithful (eval get (op.node l.node r.node)) ((l.jinja env).bind fun a => (r.jinja env).bind fun b => op.apply a b)
    rw [eval_times]
    rcases hl with ⟨a, -, hja, ha⟩ | ⟨hja, x, hx, hnot⟩
    · rcases hr with ⟨b, hb, hjb, hb'⟩ | ⟨hjb, y, hy, hnot⟩
      · rw [ha, hb', hja, hjb]
        exact ProductOp.faithful hb (hop a b hja hjb)
      · rw [ha, hy, hja, hjb, Option.bind_some, Option.bind_some, ProductOp.compute_nonint (.inr hnot)]
        exact faithful_error nofun
    · rcases hr with ⟨b, -, hjb, hy⟩ | ⟨hjb, y, hy, -⟩
      all_goals
        rw [hx, hy, hja, Option.bind_some, Option.bind_some, ProductOp.compute_nonint (.inl hnot)]
        exact faithful_error nofun
  | .product e, hget, h => eval_faithful e hget h
  | .plus op l r, hget, ⟨⟨hl, hr⟩, hop⟩ => by
    have hl := eval_faithful l (fun name hname => hget name (List.mem_append_left _ hname)) hl
    have hr := eval_faithful r (fun name hname => hget name (List.mem_append_right _ hname)) hr
    change Faithful (eval get (op.node l.node r.node)) ((l.jinja env).bind fun a => (r.jinja env).map fun b => op.apply a b)
    rw [eval_plus]
    rcases hl with ⟨a, -, hja, ha⟩ | ⟨hja, x, hx, hnot⟩
    · rcases hr with ⟨b, -, hjb, hb'⟩ | ⟨hjb, y, hy, hnot⟩
      · rw [ha, hb', hja, hjb]
        exact SumOp.faithful (hop a b hja hjb)
      · obtain ⟨v, hv, hvnot⟩ := @SumOp.compute_nonint op (.int a) y (.inr hnot)
        rw [ha, hy, hja, hjb, Option.bind_some, Option.bind_some, hv]
        exact faithful_error hvnot
    · rcases hr with ⟨b, -, hjb, hy⟩ | ⟨hjb, y, hy, -⟩
      all_goals
        obtain ⟨v, hv, hvnot⟩ := @SumOp.compute_nonint op x _ (.inl hnot)
        rw [hx, hy, hja, Option.bind_some, Option.bind_some, hv]
        exact faithful_error hvnot

/-- A sum or a floor division makes no number, and neither does what it is part of. -/
theorem eval_noNumber {k : Level} : ∀ (e : Arith k), e.HasSum → NoNumber (eval get e.node)
  | .lit _ _, h => h.elim
  | .var _ _, h => h.elim
  | .paren e, h => eval_noNumber e h
  | .primary e, h => eval_noNumber e h
  | .neg e, h => by
    intro i heq
    change (eval get e.node).bind (unop .neg) = _ at heq
    obtain ⟨v, hv, heq⟩ := Option.bind_eq_some_iff.1 heq
    cases v with
    | int j => exact eval_noNumber e h j hv
    | _ => cases heq
  | .unary e, h => eval_noNumber e h
  | .times op l r, h => by
    intro i heq
    change eval get (op.node l.node r.node) = _ at heq
    rw [eval_times] at heq
    obtain ⟨x, hx, heq⟩ := Option.bind_eq_some_iff.1 heq
    obtain ⟨y, hy, heq⟩ := Option.bind_eq_some_iff.1 heq
    rcases h with rfl | hl | hr
    · cases heq
    · rw [ProductOp.compute_nonint (.inl fun j hj => eval_noNumber l hl j (by rw [hx, hj]))] at heq
      cases heq
    · rw [ProductOp.compute_nonint (.inr fun j hj => eval_noNumber r hr j (by rw [hy, hj]))] at heq
      cases heq
  | .product e, h => eval_noNumber e h
  | .plus op l r, h => by
    intro i heq
    change eval get (op.node l.node r.node) = _ at heq
    rw [eval_plus] at heq
    obtain ⟨x, hx, heq⟩ := Option.bind_eq_some_iff.1 heq
    obtain ⟨y, hy, heq⟩ := Option.bind_eq_some_iff.1 heq
    have hlost : (∀ j, x ≠ .int j) ∨ (∀ j, y ≠ .int j) → False := by
      intro hxy
      obtain ⟨v, hv, hnot⟩ := SumOp.compute_nonint hxy
      rw [hv, Option.some_inj] at heq
      exact hnot i heq
    rcases h with rfl | hl | hr
    · cases heq
    · exact hlost (.inl fun j hj => eval_noNumber l hl j (by rw [hx, hj]))
    · exact hlost (.inr fun j hj => eval_noNumber r hr j (by rw [hy, hj]))

theorem Faithful.number {value : Option Value} {a : Int} (h : Faithful value (some (a : ℚ))) : value = some (.int a) := by
  rcases h with ⟨v, -, hj, hv⟩ | ⟨hj, -⟩
  · rw [hv, Int.cast_inj.1 (Option.some_inj.1 hj)]
  · cases hj

theorem eval_int {k : Level} {e : Arith k} {a : Int} (hget : ∀ name ∈ e.names, get name = .int (env name) ∧
    Value.inRange (env name) = true) (hagrees : e.Agrees env) (hj : e.jinja env = some (a : ℚ)) :
    eval get e.node = some (.int a) := by
  have hv := eval_faithful e hget hagrees
  rw [hj] at hv
  exact hv.number

theorem checked_none {i : Int} (h : Value.inRange i = false) : checked i = none := by
  unfold checked
  rw [h]
  rfl

theorem ProductOp.compute_overflow {op : ProductOp} {a b : Int} (h : op.Overflows a b) :
    op.compute (.int a) (.int b) = none := by
  cases op with
  | mul => exact checked_none h
  | floordiv => exact h.elim
  | div =>
    change (if b = 0 then some .undefined else checked (a.tdiv b)) = none
    rw [if_neg h.1, checked_none h.2]
  | mod =>
    change (if b = 0 then some .undefined else if Value.inRange (a.tdiv b) then checked (a.tmod b) else none) = none
    rw [if_neg h.1, h.2]
    rfl

theorem SumOp.compute_overflow {op : SumOp} {a b : Int} (h : op.Overflows a b) : op.compute (.int a) (.int b) = none := by
  cases op with
  | add => exact h.elim
  | sub => exact checked_none h

/-- An overflow is one of the whole evaluation. -/
theorem eval_overflow {k : Level} : ∀ (e : Arith k), (∀ name ∈ e.names, get name = .int (env name) ∧
    Value.inRange (env name) = true) → e.Overflows env → eval get e.node = none
  | .lit _ _, _, h => h.elim
  | .var _ _, _, h => h.elim
  | .paren e, hget, h => eval_overflow e hget h
  | .primary e, hget, h => eval_overflow e hget h
  | .neg e, hget, h => by
    change (eval get e.node).bind (unop .neg) = none
    rcases h with h | ⟨hagrees, a, hj, hrange⟩
    · rw [eval_overflow e hget h]
      rfl
    · rw [eval_int (e := e) hget hagrees hj]
      exact checked_none hrange
  | .unary e, hget, h => eval_overflow e hget h
  | .times op l r, hget, h => by
    have hgetl : ∀ name ∈ l.names, _ := fun name hname => hget name (List.mem_append_left _ hname)
    have hgetr : ∀ name ∈ r.names, _ := fun name hname => hget name (List.mem_append_right _ hname)
    change eval get (op.node l.node r.node) = none
    rw [eval_times]
    rcases h with hl | hr | ⟨⟨hl, hr⟩, a, b, hja, hjb, hover⟩
    · rw [eval_overflow l hgetl hl]
      rfl
    · rw [eval_overflow r hgetr hr]
      simp
    · rw [eval_int hgetl hl hja, eval_int hgetr hr hjb]
      exact ProductOp.compute_overflow hover
  | .product e, hget, h => eval_overflow e hget h
  | .plus op l r, hget, h => by
    have hgetl : ∀ name ∈ l.names, _ := fun name hname => hget name (List.mem_append_left _ hname)
    have hgetr : ∀ name ∈ r.names, _ := fun name hname => hget name (List.mem_append_right _ hname)
    change eval get (op.node l.node r.node) = none
    rw [eval_plus]
    rcases h with hl | hr | ⟨⟨hl, hr⟩, a, b, hja, hjb, hover⟩
    · rw [eval_overflow l hgetl hl]
      rfl
    · rw [eval_overflow r hgetr hr]
      simp
    · rw [eval_int hgetl hl hja, eval_int hgetr hr hjb]
      exact SumOp.compute_overflow hover

/-! ## The text -/

theorem Arith.tokens_ne_nil {k : Level} : ∀ e : Arith k, e.tokens ≠ []
  | .lit _ _ => by simp [tokens]
  | .var _ _ => by simp [tokens]
  | .paren _ => by simp [tokens]
  | .primary e => e.tokens_ne_nil
  | .neg _ => by simp [tokens]
  | .unary e => e.tokens_ne_nil
  | .times _ l r => by simp [tokens, r.tokens_ne_nil]
  | .product e => e.tokens_ne_nil
  | .plus _ l r => by simp [tokens]

theorem Arith.head_ne_percent {k : Level} : ∀ e : Arith k, ∀ t ∈ e.tokens.head?, t ≠ .percent
  | .lit _ _ => by simp [tokens]
  | .var _ _ => by simp [tokens]
  | .paren _ => by simp [tokens]
  | .primary e => e.head_ne_percent
  | .neg _ => by simp [tokens]
  | .unary e => e.head_ne_percent
  | .times _ l r => by
    rw [tokens, List.append_assoc, List.head?_append_of_ne_nil _ l.tokens_ne_nil]
    exact l.head_ne_percent
  | .product e => e.head_ne_percent
  | .plus _ l r => by
    rw [tokens, List.head?_append_of_ne_nil _ l.tokens_ne_nil]
    exact l.head_ne_percent

theorem Arith.last_endsOperand {k : Level} : ∀ e : Arith k, ∀ t ∈ e.tokens.getLast?, t.endsOperand = true
  | .lit _ _ => by simp [tokens, Token.endsOperand, Token.isWord]
  | .var _ _ => by simp [tokens, Token.endsOperand, Token.isWord]
  | .paren e => by
    intro t ht
    rw [tokens, List.getLast?_append] at ht
    cases ht
    rfl
  | .primary e => e.last_endsOperand
  | .neg e => by
    rw [tokens, List.getLast?_cons_of_ne_nil e.tokens_ne_nil]
    exact e.last_endsOperand
  | .unary e => e.last_endsOperand
  | .times _ l r => by
    rw [tokens, List.getLast?_append_of_ne_nil _ r.tokens_ne_nil]
    exact r.last_endsOperand
  | .product e => e.last_endsOperand
  | .plus _ l r => by
    rw [tokens, List.getLast?_append_of_ne_nil _ (by simp), List.getLast?_cons_of_ne_nil r.tokens_ne_nil]
    exact r.last_endsOperand

/-- A sign stands apart from an operand on either side of it. -/
theorem apart_sign {a b : Token} (ha : a.endsOperand = true) (hb : b.isWord = false) : Apart a b := by
  refine ⟨fun h => ?_, ?_⟩
  · rw [hb] at h
    cases h.2
  · rintro rfl
    cases ha

theorem Arith.apart {k : Level} : ∀ e : Arith k, e.tokens.IsChain Apart
  | .lit _ _ => List.isChain_singleton _
  | .var _ _ => List.isChain_singleton _
  | .paren e => by
    rw [tokens, List.isChain_append, List.isChain_cons]
    refine ⟨⟨fun t _ => ⟨fun h => (nomatch h.1), nofun⟩, e.apart⟩, List.isChain_singleton _, fun a ha b hb => ?_⟩
    rw [List.getLast?_cons_of_ne_nil e.tokens_ne_nil] at ha
    cases hb
    exact apart_sign (e.last_endsOperand a ha) rfl
  | .primary e => e.apart
  | .neg e => by
    rw [tokens, List.isChain_cons]
    exact ⟨fun t ht => ⟨fun h => (nomatch h.1), fun _ => e.head_ne_percent t ht⟩, e.apart⟩
  | .unary e => e.apart
  | .times op l r => by
    have hsign : op.tokens.IsChain Apart ∧ (∀ b ∈ op.tokens.head?, b.isWord = false) ∧
        ∀ a ∈ op.tokens.getLast?, a.isWord = false ∧ a ≠ .minus := by
      cases op <;> simp [ProductOp.tokens, Token.isWord, Apart]
    have hne : op.tokens ≠ [] := by
      cases op <;> simp [ProductOp.tokens]
    rw [tokens, List.append_assoc, List.isChain_append, List.isChain_append, List.head?_append_of_ne_nil _ hne]
    refine ⟨l.apart, ⟨hsign.1, r.apart, fun a ha b _ => ?_⟩, fun a ha b hb => ?_⟩
    · obtain ⟨hword, hminus⟩ := hsign.2.2 a ha
      refine ⟨fun h => ?_, fun h => absurd h hminus⟩
      rw [hword] at h
      cases h.1
    · exact apart_sign (l.last_endsOperand a ha) (hsign.2.1 b hb)
  | .product e => e.apart
  | .plus op l r => by
    rw [tokens, List.isChain_append, List.isChain_cons]
    refine ⟨l.apart, ⟨fun t ht => ⟨fun h => ?_, fun _ => r.head_ne_percent t ht⟩, r.apart⟩, fun a ha b hb => ?_⟩
    · have hword : op.token.isWord = false := by
        cases op <;> rfl
      rw [hword] at h
      cases h.1
    · cases hb
      exact apart_sign (l.last_endsOperand a ha) (by cases op <;> rfl)

theorem Spelled.length_le {ts : List Token} {s : Str} (h : Spelled ts s) : ts.length ≤ s.length := by
  induction h with
  | nil => exact le_refl _
  | @cons t ts w blank s hblank hw hs ih =>
    have hne : w ≠ [] := by
      rcases hw.cases with ⟨-, hne, -⟩ | ⟨-, c, rfl, -⟩
      · exact hne
      · simp
    have hpos := List.length_pos_iff.2 hne
    simp only [List.length_append, List.length_cons]
    omega

/-- The text of an expression in a tag is evaluated as its nodes. -/
theorem tagValue_eq {isExpr strip : Bool} {blank more text : List UInt8} (hblank : ∀ c ∈ blank, isBlank c = true)
    {e : Arith .sum} (hminus : e.SingleMinus) (htext : Spelled e.tokens text) :
    tagValue get isExpr (text ++ blank ++ closeText isExpr strip more) = eval get e.node := by
  have hlex := @lexTag_spelled isExpr strip blank more hblank _ _ htext e.apart e.last_endsOperand
    ((text ++ blank ++ closeText isExpr strip more).length + 1) (by
      have := htext.length_le
      rw [List.length_append, List.length_append]
      omega)
  have hparse := @parseExpr_tokens e hminus [closeToken isExpr] (by cases isExpr <;> rfl)
  unfold tagValue
  rw [hlex]
  change (parseExpr (e.tokens ++ [closeToken isExpr])).bind (fun p => eval get p.1) = _
  rw [hparse]
  rfl

/-- Where every operator is applied to numbers that it agrees on, the engine computes the value of Jinja and nothing
overflows. A sum or a floor division that Jinja has a number for is never that number, and an operator that leaves the range
overflows whatever is done with it. -/
theorem arithmetic_law {isExpr strip : Bool} {blank more text : List UInt8} (hblank : ∀ c ∈ blank, isBlank c = true)
    {e : Arith .sum} (hminus : e.SingleMinus) (htext : Spelled e.tokens text)
    (hget : ∀ name ∈ e.names, get name = .int (env name) ∧ Value.inRange (env name) = true) :
    (e.Agrees env →
      ComputesJinja (tagValue get isExpr (text ++ blank ++ closeText isExpr strip more)) (e.jinja env)) ∧
    (e.HasSum → ∀ v : Int, Value.inRange v = true → e.jinja env = some (v : ℚ) →
      ¬ ComputesJinja (tagValue get isExpr (text ++ blank ++ closeText isExpr strip more)) (e.jinja env)) ∧
    (e.Overflows env →
      ¬ ComputesJinja (tagValue get isExpr (text ++ blank ++ closeText isExpr strip more)) (e.jinja env)) := by
  rw [tagValue_eq hblank hminus htext]
  refine ⟨?_, ?_, ?_⟩
  · intro h
    rcases eval_faithful e hget h with ⟨v, -, hj, hv⟩ | ⟨hj, v, hv, -⟩
    · rw [hv, hj]
      refine ⟨rfl, fun u _ hu => ?_⟩
      rw [Option.some_inj, Int.cast_inj] at hu
      rw [hu]
    · rw [hv, hj]
      exact ⟨rfl, fun u _ hu => nomatch hu⟩
  · rintro hsum v hrange hj ⟨-, hall⟩
    exact eval_noNumber e hsum v (hall v hrange hj)
  · rintro hover ⟨hsome, -⟩
    rw [eval_overflow e hget hover] at hsome
    cases hsome

/-- A number as an operand. -/
def number (i : Int) (h : 0 ≤ i ∧ i < 2 ^ 63) : Arith .unary := .primary (.lit i h)

/-- The variable `a`. -/
def variableA : Arith .unary :=
  .primary (.var (ascii "a") ⟨⟨97, [], by decide, by decide⟩, by decide +kernel, by decide⟩)

/-- `6 / 3 - -a` -/
def quotientMinus : Arith .sum :=
  .plus .sub (.product (.times .div (.unary (number 6 (by decide))) (number 3 (by decide)))) (.unary (.neg variableA))

/-- `1 + 2` -/
def onePlusTwo : Arith .sum :=
  .plus .add (.product (.unary (number 1 (by decide)))) (.unary (number 2 (by decide)))

/-- `a * 2` -/
def twiceA : Arith .sum := .product (.times .mul (.unary variableA) (number 2 (by decide)))

/-- `-7 % 3` -/
def minusSevenModThree : Arith .sum := .product (.times .mod (.unary (.neg (number 7 (by decide)))) (number 3 (by decide)))

theorem quotientMinus_spelled : Spelled quotientMinus.tokens (ascii "6 / 3 - -a") := by
  have hsplit : ascii "6 / 3 - -a" =
      [] ++ [54] ++ ([32] ++ [47] ++ ([32] ++ [51] ++ ([32] ++ [45] ++ ([32] ++ [45] ++ ([] ++ [97] ++ []))))) := by decide
  rw [hsplit]
  refine .cons (by decide +kernel) ?_ (.cons (by decide +kernel) rfl (.cons (by decide +kernel) ?_
    (.cons (by decide +kernel) rfl (.cons (by decide +kernel) rfl (.cons (by decide +kernel) ?_ .nil)))))
  · exact ⟨by decide, by decide +kernel, by decide, by decide⟩
  · exact ⟨by decide, by decide +kernel, by decide, by decide⟩
  · exact ⟨by decide, ⟨97, [], by decide, by decide⟩, by decide +kernel, by decide⟩

theorem onePlusTwo_spelled : Spelled onePlusTwo.tokens (ascii "1 + 2") := by
  have hsplit : ascii "1 + 2" = [] ++ [49] ++ ([32] ++ [43] ++ ([32] ++ [50] ++ [])) := by decide
  rw [hsplit]
  refine .cons (by decide +kernel) ?_ (.cons (by decide +kernel) rfl (.cons (by decide +kernel) ?_ .nil))
  · exact ⟨by decide, by decide +kernel, by decide, by decide⟩
  · exact ⟨by decide, by decide +kernel, by decide, by decide⟩

theorem onePlusTwo_jinja : (onePlusTwo.jinja fun _ => 0) = some ((3 : Int) : ℚ) := by
  simp [onePlusTwo, number, Arith.jinja, SumOp.apply]
  norm_num

theorem twiceA_spelled : Spelled twiceA.tokens (ascii "a*2") := by
  have hsplit : ascii "a*2" = [] ++ [97] ++ ([] ++ [42] ++ ([] ++ [50] ++ [])) := by decide
  rw [hsplit]
  refine .cons (by decide +kernel) ?_ (.cons (by decide +kernel) rfl (.cons (by decide +kernel) ?_ .nil))
  · exact ⟨by decide, ⟨97, [], by decide, by decide⟩, by decide +kernel, by decide⟩
  · exact ⟨by decide, by decide +kernel, by decide, by decide⟩

theorem minusSevenModThree_spelled : Spelled minusSevenModThree.tokens (ascii "-7 % 3") := by
  have hsplit : ascii "-7 % 3" = [] ++ [45] ++ ([] ++ [55] ++ ([32] ++ [37] ++ ([32] ++ [51] ++ []))) := by decide
  rw [hsplit]
  refine .cons (by decide +kernel) rfl (.cons (by decide +kernel) ?_ (.cons (by decide +kernel) rfl
    (.cons (by decide +kernel) ?_ .nil)))
  · exact ⟨by decide, by decide +kernel, by decide, by decide⟩
  · exact ⟨by decide, by decide +kernel, by decide, by decide⟩

/-- A quotient and a doubled minus that agree, a sum, and a product that overflows. -/
theorem arithmetic_law_quotient :
    ComputesJinja (tagValue (fun _ => .int 5) true (ascii "6 / 3 - -a" ++ [32] ++ closeText true false []))
        (quotientMinus.jinja fun _ => 5) ∧
      ¬ ComputesJinja (tagValue (fun _ => .int 0) true (ascii "1 + 2" ++ [] ++ closeText true false []))
        (onePlusTwo.jinja fun _ => 0) ∧
      ¬ ComputesJinja (tagValue (fun _ => .int 9223372036854775807) true (ascii "a*2" ++ [] ++ closeText true false []))
        (twiceA.jinja fun _ => 9223372036854775807) := by
  refine ⟨(@arithmetic_law (fun _ => 5) _ true false [32] [] _ (by decide +kernel) _ ?_ quotientMinus_spelled ?_).1 ?_,
    (@arithmetic_law (fun _ => 0) _ true false [] [] _ (by simp) _ ?_ onePlusTwo_spelled ?_).2.1 (.inl rfl) 3 (by decide)
      onePlusTwo_jinja,
    (@arithmetic_law (fun _ => 9223372036854775807) _ true false [] [] _ (by simp) _ ?_ twiceA_spelled ?_).2.2 ?_⟩
  · simp [quotientMinus, variableA, number, Arith.SingleMinus, Arith.isNeg]
  · intro name _
    exact ⟨rfl, by decide⟩
  · simp only [quotientMinus, variableA, number, Arith.Agrees, Arith.jinja, true_and, and_true]
    refine ⟨⟨?_, ?_⟩, ?_⟩
    · rintro a b ha hb
      have ha : 6 = a := Int.cast_inj.1 (Option.some_inj.1 ha)
      have hb : 3 = b := Int.cast_inj.1 (Option.some_inj.1 hb)
      subst ha hb
      exact .inr ⟨by decide, by decide⟩
    · rintro a ha
      have ha : 5 = a := Int.cast_inj.1 (Option.some_inj.1 ha)
      subst ha
      decide
    · rintro a b ha hb
      have ha : (a : ℚ) = 2 := by
        simp [ProductOp.apply] at ha
        rw [← ha]
        norm_num
      have ha : a = 2 := by exact_mod_cast ha
      have hb : b = -5 := by
        simp at hb
        exact_mod_cast hb.symm
      subst ha hb
      change Value.inRange (2 - -5) = true
      decide
  · simp [onePlusTwo, number, Arith.SingleMinus]
  · intro name _
    exact ⟨rfl, by decide⟩
  · simp [twiceA, variableA, number, Arith.SingleMinus]
  · intro name _
    exact ⟨rfl, by decide⟩
  · refine .inr (.inr ⟨⟨trivial, trivial⟩, 9223372036854775807, 2, rfl, rfl, ?_⟩)
    change Value.inRange (9223372036854775807 * 2) = false
    decide

/-- The sum of 1 and 2 is the text `12`. -/
theorem one_plus_two :
    Spelled onePlusTwo.tokens (ascii "1 + 2") ∧ (onePlusTwo.jinja fun _ => 0) = some ((3 : Int) : ℚ) ∧
      tagValue (fun _ => .undefined) true (ascii "1 + 2\x7d\x7d") = some (.str (ascii "12")) ∧
      ¬ ComputesJinja (tagValue (fun _ => .undefined) true (ascii "1 + 2\x7d\x7d")) (onePlusTwo.jinja fun _ => 0) := by
  have hvalue : tagValue (fun _ => .undefined) true (ascii "1 + 2\x7d\x7d") = some (.str (ascii "12")) := by
    have hnode : eval (fun _ => .undefined) onePlusTwo.node =
        some (.str (ascii (toString (1 : Int)) ++ ascii (toString (2 : Int)))) := rfl
    have hdigits : ascii (toString (1 : Int)) ++ ascii (toString (2 : Int)) = ascii "12" := by decide
    have htag := @tagValue_eq (fun _ => .undefined) true false [] [] _ (by simp) onePlusTwo
      (by simp [onePlusTwo, number, Arith.SingleMinus]) onePlusTwo_spelled
    rw [hnode, hdigits] at htag
    exact htag
  refine ⟨onePlusTwo_spelled, onePlusTwo_jinja, hvalue, ?_⟩
  rintro ⟨-, hall⟩
  have hint := hall 3 (by decide) onePlusTwo_jinja
  rw [hvalue] at hint
  cases hint

/-- The remainder is that of C, and the sum a text. -/
theorem minus_seven_mod_three :
    (Spelled minusSevenModThree.tokens (ascii "-7 % 3") ∧ (minusSevenModThree.jinja fun _ => 0) = some ((2 : Int) : ℚ) ∧
      tagValue (fun _ => .undefined) true (ascii "-7 % 3\x7d\x7d") = some (.int (-1)) ∧
      ¬ ComputesJinja (tagValue (fun _ => .undefined) true (ascii "-7 % 3\x7d\x7d"))
        (minusSevenModThree.jinja fun _ => 0)) ∧
    Spelled onePlusTwo.tokens (ascii "1 + 2") ∧
      ¬ ComputesJinja (tagValue (fun _ => .undefined) true (ascii "1 + 2\x7d\x7d")) (onePlusTwo.jinja fun _ => 0) := by
  have hjinja : (minusSevenModThree.jinja fun _ => 0) = some ((2 : Int) : ℚ) := by
    have hfloor : ⌊(-7 : ℚ) / 3⌋ = -3 := by
      rw [Int.floor_eq_iff]
      norm_num
    simp [minusSevenModThree, number, Arith.jinja, ProductOp.apply, hfloor]
    norm_num
  have hvalue : tagValue (fun _ => .undefined) true (ascii "-7 % 3\x7d\x7d") = some (.int (-1)) := by
    have hnode : eval (fun _ => .undefined) minusSevenModThree.node = some (.int (-1)) := rfl
    have htag := @tagValue_eq (fun _ => .undefined) true false [] [] _ (by simp) minusSevenModThree
      (by simp [minusSevenModThree, number, Arith.SingleMinus, Arith.isNeg]) minusSevenModThree_spelled
    rw [hnode] at htag
    exact htag
  refine ⟨⟨minusSevenModThree_spelled, hjinja, hvalue, ?_⟩, onePlusTwo_spelled, one_plus_two.2.2.2⟩
  rintro ⟨-, hall⟩
  have hint := hall 2 (by decide) hjinja
  rw [hvalue, Option.some_inj, Value.int.injEq] at hint
  exact absurd hint (by decide)

end BitForge.Template
