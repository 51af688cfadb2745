/-
The tokens of the template engine, `lex` of `chat_template.cpp` inside a tag, and the texts of operands and operators with
any white space before them.
-/
import BitForge.Template.Value

namespace BitForge.Template

open BitForge.Lib

/-- `TK`, with the value of the token. -/
inductive Token where
  | eof
  | text (s : Str)
  | str (s : Str)
  | int (i : Int)
  | ident (s : Str)
  | eqEq | neq | lt | le | gt | ge | eq
  | plus | tilde | minus | star | slash | percent
  | pipe | comma | dot | colon
  | lbracket | rbracket | lparen | rparen | lbrace | rbrace
  | stmtOpen | stmtClose | exprOpen | exprClose
deriving DecidableEq, Repr

/-! ## The loop inside a tag -/

def isBlank (c : UInt8) : Bool := c == 32 || c == 9 || c == 13 || c == 10

/-- `isalpha`, or an underscore -/
def isNameStart (c : UInt8) : Bool := (65 ≤ c && c ≤ 90) || (97 ≤ c && c ≤ 122) || c == 95

def isNameChar (c : UInt8) : Bool := isNameStart c || Value.isDigit c

def escaped (c : UInt8) : UInt8 := if c = 110 then 10 else if c = 116 then 9 else if c = 114 then 13 else c

/-- The rest of a string literal, and what follows it. -/
def stringBody (delim : UInt8) : List UInt8 → Str × List UInt8
  | [] => ([], [])
  | [c] => if c = delim then ([], []) else ([c], [])
  | c :: d :: s =>
    if c = delim then ([], d :: s)
    else if c = 92 then
      let r := stringBody delim s
      (escaped d :: r.1, r.2)
    else
      let r := stringBody delim (d :: s)
      (c :: r.1, r.2)

def twoChar (c : UInt8) (next : Option UInt8) : Option Token :=
  if next = some 61 then
    if c = 61 then some .eqEq
    else if c = 33 then some .neq
    else if c = 60 then some .le
    else if c = 62 then some .ge
    else none
  else none

def oneChar (c : UInt8) : Option Token :=
  [(60, Token.lt), (62, .gt), (61, .eq), (43, .plus), (126, .tilde), (45, .minus), (42, .star), (47, .slash),
    (37, .percent), (124, .pipe), (44, .comma), (46, .dot), (58, .colon), (91, .lbracket), (93, .rbracket),
    (40, .lparen), (41, .rparen), (123, .lbrace), (125, .rbrace)].lookup c

/-- The second character but one of a closing delimiter. -/
def closing (isExpr : Bool) : UInt8 := if isExpr then 125 else 37

/-- One more token, before those that follow. -/
def emit (t : Token) (r : Option (List Token × List UInt8)) : Option (List Token × List UInt8) :=
  r.map fun p => (t :: p.1, p.2)

/-- The loop of `lex` inside a tag: the tokens up to the closing delimiter, and the text that follows it. Missing where the
value of a number overflows. -/
def lexTag (isExpr : Bool) : Nat → List UInt8 → Option (List Token × List UInt8)
  | 0, _ => some ([], [])
  | fuel + 1, text =>
    match text.dropWhile isBlank with
    | [] => some ([], [])
    | c :: s =>
      -- the closing delimiter may have a minus before it, which strips the text behind it
      if c = 45 ∧ s.head? = some (closing isExpr) ∧ s.tail.head? = some 125 then
        some ([if isExpr then .exprClose else .stmtClose], (s.drop 2).dropWhile isBlank)
      else if c = closing isExpr ∧ s.head? = some 125 then some ([if isExpr then .exprClose else .stmtClose], s.tail)
      else if c = 39 ∨ c = 34 then emit (.str (stringBody c s).1) (lexTag isExpr fuel (stringBody c s).2)
      else if Value.isDigit c then
        let v := Value.digits ((c :: s).takeWhile Value.isDigit)
        if Value.inRange v then emit (.int v) (lexTag isExpr fuel ((c :: s).dropWhile Value.isDigit)) else none
      else if isNameStart c then
        emit (.ident ((c :: s).takeWhile isNameChar)) (lexTag isExpr fuel ((c :: s).dropWhile isNameChar))
      else
        match twoChar c s.head? with
        | some t => emit t (lexTag isExpr fuel s.tail)
        | none =>
          match oneChar c with
          | some t => emit t (lexTag isExpr fuel s)
          | none => lexTag isExpr fuel s

/-! ## Spelling -/

/-- The names that the parser takes for literals or operators. -/
def reserved : List Str :=
  [ascii "true", ascii "True", ascii "false", ascii "False", ascii "none", ascii "None", ascii "not", ascii "and", ascii "or",
    ascii "if", ascii "else", ascii "is", ascii "in"]

/-- A variable's name. -/
def IsName (s : Str) : Prop := (∃ c rest, s = c :: rest ∧ isNameStart c = true) ∧ (∀ c ∈ s, isNameChar c = true) ∧ s ∉ reserved

/-- The ways to write a number, a name or an operator of arithmetic. -/
def Token.IsSpelling : Token → Str → Prop
  | .int i, w => w ≠ [] ∧ (∀ c ∈ w, Value.isDigit c = true) ∧ Value.digits w = i ∧ Value.inRange i = true
  | .ident s, w => w = s ∧ IsName s
  | .plus, w => w = [43]
  | .minus, w => w = [45]
  | .star, w => w = [42]
  | .slash, w => w = [47]
  | .percent, w => w = [37]
  | .lparen, w => w = [40]
  | .rparen, w => w = [41]
  | _, _ => False

/-- A text of the tokens, with white space before any of them. -/
inductive Spelled : List Token → Str → Prop
  | nil : Spelled [] []
  | cons {t : Token} {ts : List Token} {w blank s : Str} (hblank : ∀ c ∈ blank, isBlank c = true) (hw : t.IsSpelling w)
      (hs : Spelled ts s) : Spelled (t :: ts) (blank ++ w ++ s)

def Token.isWord : Token → Bool
  | .int _ => true
  | .ident _ => true
  | _ => false

/-- Two tokens that stay apart without white space, and do not close the tag. -/
def Apart (a b : Token) : Prop := ¬ (a.isWord = true ∧ b.isWord = true) ∧ (a = .minus → b ≠ .percent)

/-- The tokens end in an operand. -/
def Token.endsOperand (t : Token) : Bool := t.isWord || t == .rparen

/-- The text of a closing delimiter, and what follows the tag. -/
def closeText (isExpr strip : Bool) (more : List UInt8) : List UInt8 :=
  (if strip then [45] else []) ++ closing isExpr :: 125 :: more

def afterClose (strip : Bool) (more : List UInt8) : List UInt8 := if strip then more.dropWhile isBlank else more

def closeToken (isExpr : Bool) : Token := if isExpr then .exprClose else .stmtClose

/-! ## Spelled tokens are read back -/

theorem isNameChar_ne {c : UInt8} : isNameChar c = true →
    isBlank c = false ∧ c ≠ 45 ∧ c ≠ 125 ∧ c ≠ 37 ∧ c ≠ 39 ∧ c ≠ 34 := by
  revert c
  apply uint8_forall
  decide +kernel

theorem isBlank_ne {c : UInt8} : isBlank c = true → isNameChar c = false ∧ c ≠ 125 ∧ c ≠ 37 := by
  revert c
  apply uint8_forall
  decide +kernel

theorem isDigit_isNameChar {c : UInt8} (h : Value.isDigit c = true) : isNameChar c = true := by
  simp [isNameChar, h]

theorem isNameStart_isNameChar {c : UInt8} (h : isNameStart c = true) : isNameChar c = true := by
  simp [isNameChar, h]

theorem isNameStart_not_isDigit {c : UInt8} : isNameStart c = true → Value.isDigit c = false := by
  revert c
  apply uint8_forall
  decide +kernel

/-- The words are spelled in characters of names, the operators in one other character. -/
theorem Token.IsSpelling.cases {t : Token} {w : Str} (h : t.IsSpelling w) :
    (t.isWord = true ∧ w ≠ [] ∧ ∀ c ∈ w, isNameChar c = true) ∨
      (t.isWord = false ∧ ∃ c, w = [c] ∧ isNameChar c = false ∧ isBlank c = false ∧ oneChar c = some t ∧
        c ≠ 125 ∧ (c = 37 → t = .percent) ∧ (c = 45 → t = .minus) ∧ c ≠ 39 ∧ c ≠ 34 ∧
          ∀ next, twoChar c next = none) := by
  cases t with
  | int i =>
    obtain ⟨hne, hdigits, -, -⟩ := h
    exact .inl ⟨rfl, hne, fun c hc => isDigit_isNameChar (hdigits c hc)⟩
  | ident s =>
    obtain ⟨rfl, ⟨c, rest, rfl, -⟩, hall, -⟩ := h
    exact .inl ⟨rfl, by simp, hall⟩
  | plus | minus | star | slash | percent | lparen | rparen =>
    refine .inr ⟨rfl, _, h, by decide, by decide, by decide, by decide, by decide, by decide, by decide, by decide, ?_⟩
    intro next
    simp [twoChar]
  | _ => exact absurd h (by simp [Token.IsSpelling])

/-- How the text of a token starts. -/
theorem Spelled.head {t : Token} {ts : List Token} {s : Str} (h : Spelled (t :: ts) s) :
    ∃ c rest, s = c :: rest ∧ c ≠ 125 ∧ (c = 37 → t = .percent) ∧ (t.isWord = false → isNameChar c = false) := by
  cases h with
  | @cons _ _ w blank s hblank hw hs =>
    cases blank with
    | cons c blank =>
      obtain ⟨hname, hbrace, hpercent⟩ := isBlank_ne (hblank c List.mem_cons_self)
      exact ⟨c, blank ++ w ++ s, by simp, hbrace, fun h => absurd h hpercent, fun _ => hname⟩
    | nil =>
      rcases hw.cases with ⟨hword, hne, hall⟩ | ⟨hop, c, rfl, hname, -, -, hbrace, hpercent, -⟩
      · obtain ⟨c, rest, rfl⟩ := List.exists_cons_of_ne_nil hne
        obtain ⟨-, -, hbrace, hpercent, -⟩ := isNameChar_ne (hall c List.mem_cons_self)
        refine ⟨c, rest ++ s, by simp, hbrace, fun h => absurd h hpercent, fun hnot => ?_⟩
        rw [hword] at hnot
        cases hnot
      · exact ⟨c, s, rfl, hbrace, hpercent, fun _ => hname⟩

/-- What stands behind a token, up to the closing delimiter and more. -/
theorem behind_token {isExpr strip : Bool} {blank more : List UInt8} (hblank : ∀ c ∈ blank, isBlank c = true) {t : Token}
    {ts : List Token} {s : Str} (hs : Spelled ts s) (hchain : (t :: ts).IsChain Apart)
    (hlast : ∀ u ∈ (t :: ts).getLast?, u.endsOperand = true) :
    ∃ c rest, s ++ blank ++ closeText isExpr strip more = c :: rest ∧ (t.isWord = true → isNameChar c = false) ∧
      (t = .minus → c ≠ 125 ∧ c ≠ 37) ∧ (t = .percent → c ≠ 125) := by
  cases hs with
  | nil =>
    have hend := hlast t (by simp)
    have hminus : t ≠ .minus := by
      rintro rfl
      cases hend
    have hpercent : t ≠ .percent := by
      rintro rfl
      cases hend
    have hfirst : ∃ c rest, blank ++ closeText isExpr strip more = c :: rest ∧ isNameChar c = false := by
      cases blank with
      | cons c blank => exact ⟨c, blank ++ closeText isExpr strip more, by simp, (isBlank_ne (hblank c List.mem_cons_self)).1⟩
      | nil =>
        cases strip <;> cases isExpr <;> exact ⟨_, _, rfl, by decide⟩
    obtain ⟨c, rest, heq, hname⟩ := hfirst
    exact ⟨c, rest, heq, fun _ => hname, fun h => absurd h hminus, fun h => absurd h hpercent⟩
  | @cons u us w gap s hgap hw hs =>
    obtain ⟨hapart, -⟩ := List.isChain_cons_cons.1 hchain
    obtain ⟨c, rest, heq, hbrace, hper, hname⟩ := (Spelled.cons hgap hw hs).head
    refine ⟨c, rest ++ blank ++ closeText isExpr strip more, by rw [heq]; simp, fun hword => ?_, ?_, fun _ => hbrace⟩
    · apply hname
      cases hu : u.isWord with
      | false => rfl
      | true => exact absurd ⟨hword, hu⟩ hapart.1
    · rintro rfl
      exact ⟨hbrace, fun h => hapart.2 rfl (hper h)⟩

theorem takeWhile_stop {p : UInt8 → Bool} {w : Str} (hw : ∀ c ∈ w, p c = true) {c : UInt8} (hc : p c = false)
    (rest : List UInt8) : (w ++ c :: rest).takeWhile p = w ∧ (w ++ c :: rest).dropWhile p = c :: rest := by
  rw [List.takeWhile_append_of_pos hw, List.dropWhile_append_of_pos hw]
  simp [hc]

theorem closing_cases (isExpr : Bool) : closing isExpr = 125 ∨ closing isExpr = 37 := by
  cases isExpr
  · exact .inr rfl
  · exact .inl rfl

/-- A spelled token is read, and what stands behind it is what is read next. -/
theorem lexTag_token {isExpr : Bool} {fuel : Nat} {t : Token} {w blank rest : Str} {c : UInt8} (hw : t.IsSpelling w)
    (hblank : ∀ c ∈ blank, isBlank c = true) (hword : t.isWord = true → isNameChar c = false)
    (hminus : t = .minus → c ≠ 125 ∧ c ≠ 37) (hpercent : t = .percent → c ≠ 125) :
    lexTag isExpr (fuel + 1) (blank ++ w ++ c :: rest) = emit t (lexTag isExpr fuel (c :: rest)) := by
  have hclose := closing_cases isExpr
  rw [lexTag, List.append_assoc, List.dropWhile_append_of_pos hblank]
  rcases hw.cases with ⟨hisWord, hne, hall⟩ | ⟨-, d, rfl, hname, hnb, hone, hbrace, hper, hmin, hq, hq', htwo⟩
  · obtain ⟨d, w, rfl⟩ := List.exists_cons_of_ne_nil hne
    obtain ⟨hnb, h45, h125, h37, h39, h34⟩ := isNameChar_ne (hall d List.mem_cons_self)
    have hstop := hword hisWord
    have hnclose : d ≠ closing isExpr := by
      rcases hclose with h | h <;> rw [h] <;> assumption
    rw [List.cons_append, List.dropWhile_cons_of_neg (by simp [hnb])]
    dsimp only
    rw [if_neg (fun h => h45 h.1), if_neg (fun h => hnclose h.1), if_neg (by simp [h39, h34])]
    cases t with
    | int i =>
      obtain ⟨-, hdigits, hval, hrange⟩ := hw
      have hcd : Value.isDigit c = false := by
        by_contra h
        rw [isDigit_isNameChar (by simpa using h)] at hstop
        cases hstop
      obtain ⟨htake, hdrop⟩ := takeWhile_stop hdigits hcd rest
      rw [List.cons_append] at htake hdrop
      rw [if_pos (hdigits d List.mem_cons_self), htake, hdrop, hval, if_pos hrange]
    | ident name =>
      obtain ⟨rfl, ⟨d', rest', heq, hstart⟩, hchars, -⟩ := hw
      cases heq
      obtain ⟨htake, hdrop⟩ := takeWhile_stop hchars hstop rest
      rw [List.cons_append] at htake hdrop
      rw [if_neg (by simp [isNameStart_not_isDigit hstart]), if_pos hstart, htake, hdrop]
    | _ => exact absurd hisWord (by simp [Token.isWord])
  · have hnd : ¬ Value.isDigit d = true := by
      intro h
      rw [isDigit_isNameChar h] at hname
      cases hname
    have hns : ¬ isNameStart d = true := by
      intro h
      rw [isNameStart_isNameChar h] at hname
      cases hname
    rw [List.singleton_append, List.dropWhile_cons_of_neg (by simp [hnb])]
    dsimp only
    have hstrip : ¬ (d = 45 ∧ (c :: rest).head? = some (closing isExpr) ∧ (c :: rest).tail.head? = some 125) := by
      rintro ⟨h45, hc, -⟩
      obtain ⟨h125, h37⟩ := hminus (hmin h45)
      cases hc
      rcases hclose with h | h
      · exact h125 h
      · exact h37 h
    have hend : ¬ (d = closing isExpr ∧ (c :: rest).head? = some 125) := by
      rintro ⟨hd, hc⟩
      cases hc
      rcases hclose with h | h
      · exact hbrace (hd.trans h)
      · exact hpercent (hper (hd.trans h)) rfl
    rw [if_neg hstrip, if_neg hend, if_neg (by simp [hq, hq']), if_neg hnd, if_neg hns, htwo]
    dsimp only
    rw [hone]

/-- The text of the tokens, however it is spaced, gives the tokens up to the end of the tag. -/
theorem lexTag_spelled {isExpr strip : Bool} {blank more : List UInt8} (hblank : ∀ c ∈ blank, isBlank c = true)
    {ts : List Token} {text : Str} (h : Spelled ts text) : ts.IsChain Apart → (∀ u ∈ ts.getLast?, u.endsOperand = true) →
    ∀ {fuel : Nat}, ts.length < fuel →
      lexTag isExpr fuel (text ++ blank ++ closeText isExpr strip more) =
        some (ts ++ [closeToken isExpr], afterClose strip more) := by
  induction h with
  | nil =>
    intro _ _ fuel hfuel
    obtain ⟨fuel, rfl⟩ : ∃ k, fuel = k + 1 := ⟨fuel - 1, by omega⟩
    rw [lexTag, List.nil_append, List.dropWhile_append_of_pos hblank]
    cases strip <;> cases isExpr <;> simp [closeText, closing, isBlank, closeToken, afterClose]
  | @cons t ts w gap s hgap hw hs ih =>
    intro hchain hlast fuel hfuel
    obtain ⟨fuel, rfl⟩ : ∃ k, fuel = k + 1 := ⟨fuel - 1, by omega⟩
    obtain ⟨c, rest, heq, hword, hminus, hpercent⟩ :=
      @behind_token isExpr strip blank more hblank t ts s hs hchain hlast
    have htail : ts.IsChain Apart := hchain.tail
    have hlast' : ∀ u ∈ ts.getLast?, u.endsOperand = true := by
      intro u hu
      apply hlast
      cases ts with
      | nil => cases hu
      | cons v vs => simpa using hu
    have hrest := ih htail hlast' (show ts.length < fuel by simpa using hfuel)
    rw [show gap ++ w ++ s ++ blank ++ closeText isExpr strip more = gap ++ w ++ (s ++ blank ++ closeText isExpr strip more) by
      simp, heq, lexTag_token hw hgap hword hminus hpercent, ← heq, hrest]
    rfl

end BitForge.Template
