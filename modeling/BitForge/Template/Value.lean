/-
The values and the evaluator of the template engine, `chat_template.cpp`. Floating-point values are left out, for nothing
makes one. A result is missing where the code has no defined behaviour: a signed overflow, an access outside an array.
-/
import BitForge.Lib.CString
import Mathlib.Tactic

namespace BitForge.Template

open BitForge.Lib

/-- `std::string` -/
abbrev Str := List UInt8

inductive Value where
  | undefined
  | none
  | bool (b : Bool)
  | int (i : Int)
  | str (s : Str)
  | array (arr : List Value)
  | object (obj : List (Str × Value))

namespace Value

def truthy : Value → Bool
  | undefined => false
  | none => false
  | bool b => b
  | int i => i != 0
  | str s => !s.isEmpty
  | array arr => !arr.isEmpty
  | object obj => !obj.isEmpty

def toStr : Value → Str
  | undefined => []
  | none => []
  | bool b => if b then ascii "True" else ascii "False"
  | int i => ascii (toString i)
  | str s => s
  | array _ => []
  | object _ => []

/-- The numbers of `long long`. -/
def inRange (i : Int) : Bool := -2 ^ 63 ≤ i && i < 2 ^ 63

/-- `isspace` -/
def isSpace (c : UInt8) : Bool := c == 32 || (9 ≤ c && c ≤ 13)

/-- `isdigit` -/
def isDigit (c : UInt8) : Bool := 48 ≤ c && c ≤ 57

/-- The number that digits stand for. -/
def digits (s : Str) : Int := s.foldl (fun v c => v * 10 + ((c.toNat : Int) - 48)) 0

/-- `std::stoll`; missing where it throws. -/
def stoll (s : Str) : Option Int :=
  let t := s.dropWhile isSpace
  let neg := t.head? == some 45
  let t := if neg || t.head? == some 43 then t.tail else t
  let ds := t.takeWhile isDigit
  let v := if neg then -digits ds else digits ds
  if ds.isEmpty || !inRange v then Option.none else some v

def toInt : Value → Int
  | int i => i
  | bool b => if b then 1 else 0
  | str s => (stoll s).getD 0
  | _ => 0

def equals : Value → Value → Bool
  | str s, o => s == o.toStr
  | v, str t => v.toStr == t
  | bool a, bool b => a == b
  | int a, int b => a == b
  | none, none => true
  | undefined, undefined => true
  | _, _ => false

/-- `std::string::compare`, by its sign. -/
def compareStr : Str → Str → Int
  | [], [] => 0
  | [], _ :: _ => -1
  | _ :: _, [] => 1
  | a :: s, b :: t => if a < b then -1 else if b < a then 1 else compareStr s t

def cmp : Value → Value → Int
  | int a, int b => if a < b then -1 else if a > b then 1 else 0
  | v, o => compareStr v.toStr o.toStr

end Value

/-! ## Operators -/

inductive BinOp where
  | and | or
  | add | tilde | sub | mul | div | mod
  | eq | ne | lt | le | gt | ge
  | isIn | notIn
deriving DecidableEq, Repr

/-- Subtraction, multiplication, division and remainder of `long long`. -/
def checked (i : Int) : Option Value := if Value.inRange i then some (.int i) else none

/-- An operator on two values; `and` and `or` are not among these. -/
def binop (op : BinOp) (l r : Value) : Option Value :=
  match op with
  | .add | .tilde => some (.str (l.toStr ++ r.toStr))
  | .sub =>
    match l, r with
    | .int a, .int b => checked (a - b)
    | _, _ => some .undefined
  | .mul =>
    match l, r with
    | .int a, .int b => checked (a * b)
    | _, _ => some .undefined
  | .div =>
    match l, r with
    | .int a, .int b => if b = 0 then some .undefined else checked (a.tdiv b)
    | _, _ => some .undefined
  | .mod =>
    match l, r with
    -- the remainder is computed with the quotient, which has to fit
    | .int a, .int b =>
      if b = 0 then some .undefined else if Value.inRange (a.tdiv b) then checked (a.tmod b) else none
    | _, _ => some .undefined
  | .eq => some (.bool (l.equals r))
  | .ne => some (.bool (!l.equals r))
  | .lt => some (.bool (l.cmp r < 0))
  | .le => some (.bool (l.cmp r ≤ 0))
  | .gt => some (.bool (l.cmp r > 0))
  | .ge => some (.bool (l.cmp r ≥ 0))
  | .isIn =>
    let ls := l.toStr
    match r with
    | .str s => some (.bool (strstr s ls).isSome)
    | .array arr => some (.bool (arr.any fun x => x.equals l))
    | .object obj => some (.bool (obj.any fun kv => kv.1 == ls))
    | _ => some (.bool false)
  | .notIn =>
    let ls := l.toStr
    let found :=
      match r with
      | .str s => (strstr s ls).isSome
      | .array arr => arr.any fun x => x.equals l
      | _ => false
    some (.bool (!found))
  | .and | .or => none

inductive UnOp where
  | not
  | neg
deriving DecidableEq, Repr

def unop (op : UnOp) (v : Value) : Option Value :=
  match op with
  | .not => some (.bool (!v.truthy))
  | .neg =>
    match v with
    | .int i => checked (-i)
    | _ => some .undefined

/-! ## Slices -/

/-- `start + len`, and the steps of the loop, in `long long`. -/
def addInt (a b : Int) : Option Int := if Value.inRange (a + b) then some (a + b) else none

/-- The loop of a slice; missing where it leaves the array or does not end. -/
def sliceLoop (arr : List Value) (stop step : Int) : Nat → Int → Option (List Value)
  | 0, _ => none
  | fuel + 1, i =>
    if (if step > 0 then i < stop else i > stop) then do
      let x ← if 0 ≤ i then arr[i.toNat]? else none
      let next ← addInt i step
      let out ← sliceLoop arr stop step fuel next
      some (x :: out)
    else some []

/-- The clamping of a bound, where the step is positive. -/
def clampUp (x len : Int) : Option Int := if x < 0 then (addInt x len).map (max 0) else some (min x len)

/-- The clamping of a bound, where the step is negative. -/
def clampDown (x len : Int) : Option Int := if x < 0 then (addInt x len).map (max (-1)) else some (min x (len - 1))

/-- The slice of an array; a bound that is missing is not given. -/
def getslice (arr : List Value) (start stop step : Option Value) : Option (List Value) := do
  let len : Int := arr.length
  let step := (step.map Value.toInt).getD 1
  let step := if step = 0 then 1 else step
  if step > 0 then
    let start := (start.map Value.toInt).getD 0
    let stop := (stop.map Value.toInt).getD len
    let start ← clampUp start len
    let stop ← clampUp stop len
    sliceLoop arr stop step (arr.length + 1) start
  else
    let start := (start.map Value.toInt).getD (len - 1)
    let start ← clampDown start len
    -- a stop that is not given is before the first element, and stays there
    let stop ← stop.elim (some (-1)) fun v => clampDown v.toInt len
    sliceLoop arr stop step (arr.length + 1) start

/-! ## Expressions -/

/-- The nodes of expressions; `null` is a child that is not there. Tests, filters, calls and conditional expressions are
left out. -/
inductive Node where
  | null
  | litStr (s : Str)
  | litInt (i : Int)
  | litBool (b : Bool)
  | litNone
  | ident (name : Str)
  | getitem (obj key : Node)
  | getslice (obj start stop step : Node)
  | getattr (obj : Node) (attr : Str)
  | binop (op : BinOp) (l r : Node)
  | unop (op : UnOp) (e : Node)
deriving DecidableEq, Repr

def Node.isNull : Node → Bool
  | .null => true
  | _ => false

/-- The value of a child, if it is there. -/
def Node.given (n : Node) (v : Option Value) : Option (Option Value) := if n.isNull then some none else v.map some

/-- `std::map::find` -/
def find (obj : List (Str × Value)) (key : Str) : Value := ((obj.find? fun kv => kv.1 == key).map Prod.snd).getD .undefined

/-- `obj[key]` -/
def getitem (obj key : Value) : Value :=
  match obj with
  | .object o => find o key.toStr
  | .array arr =>
    match key with
    | .int idx =>
      let idx := if idx < 0 then idx + arr.length else idx
      if 0 ≤ idx ∧ idx < arr.length then arr.getD idx.toNat .undefined else .undefined
    | _ => .undefined
  | _ => .undefined

/-- `obj.attr` -/
def getattr (obj : Value) (attr : Str) : Value :=
  match obj with
  | .object o => find o attr
  | .array arr => if attr = ascii "length" ∨ attr = ascii "size" then .int arr.length else .undefined
  | _ => .undefined

/-- `eval`, where the variables of the scope have the values `get`. -/
def eval (get : Str → Value) : Node → Option Value
  | .null => some .undefined
  | .litStr s => some (.str s)
  | .litInt i => some (.int i)
  | .litBool b => some (.bool b)
  | .litNone => some .none
  | .ident name => some (get name)
  | .getitem obj key => do some (getitem (← eval get obj) (← eval get key))
  | .getslice obj start stop step => do
    match ← eval get obj with
    | .array arr =>
      let step ← step.given (eval get step)
      let start ← start.given (eval get start)
      let stop ← stop.given (eval get stop)
      (getslice arr start stop step).map .array
    | _ => some .undefined
  | .getattr obj attr => do some (getattr (← eval get obj) attr)
  | .binop .and l r => do
    let v ← eval get l
    if v.truthy then eval get r else some v
  | .binop .or l r => do
    let v ← eval get l
    if v.truthy then some v else eval get r
  | .binop op l r => do binop op (← eval get l) (← eval get r)
  | .unop op e => do unop op (← eval get e)

end BitForge.Template
