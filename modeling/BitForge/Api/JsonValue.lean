/-
JSON values with their white space, and how `skip_value` passes them. The grammar is that of RFC 8259
except that it leaves the inside of numbers and literals open and allows a comma before a closing bracket.
-/
import BitForge.Api.JsonText

namespace BitForge.Api

open BitForge.Lib

/-- A byte of a number or a literal. -/
def AtomByte (c : UInt8) : Prop :=
  ¬ c ≤ 0x20 ∧ c ∉ [quote, comma, openBrace, closeBrace, openBracket, closeBracket]

instance : DecidablePred AtomByte := fun c =>
  inferInstanceAs (Decidable (¬ c ≤ 0x20 ∧ c ∉ [quote, comma, openBrace, closeBrace, openBracket, closeBracket]))

/-- A number, `true`, `false` or `null`. -/
abbrev Atom := { t : List UInt8 // t ≠ [] ∧ ∀ c ∈ t, AtomByte c }

/-- A name of an object with the colon behind it. -/
structure Key where
  before : Ws
  name : Str
  between : Ws
  after : Ws

/-- The name up to its colon. -/
def Key.head (k : Key) : List UInt8 := k.before.1 ++ k.name.text ++ k.between.1

def Key.text (k : Key) : List UInt8 := k.head ++ colon :: k.after.1

mutual

inductive Value
  | atom (a : Atom)
  | str (s : Str)
  | arr (es : Elements)
  | obj (ms : Members)

inductive Elements
  | empty (w : Ws)
  | last (w : Ws) (v : Value) (w' : Ws)
  | cons (w : Ws) (v : Value) (w' : Ws) (es : Elements)

inductive Members
  | empty (w : Ws)
  | last (k : Key) (v : Value) (w : Ws)
  | cons (k : Key) (v : Value) (w : Ws) (ms : Members)

end

mutual

def Value.text : Value → List UInt8
  | .atom a => a.1
  | .str s => s.text
  | .arr es => openBracket :: es.text ++ [closeBracket]
  | .obj ms => openBrace :: ms.text ++ [closeBrace]

/-- What stands between the brackets. -/
def Elements.text : Elements → List UInt8
  | .empty w => w.1
  | .last w v w' => w.1 ++ v.text ++ w'.1
  | .cons w v w' es => w.1 ++ v.text ++ w'.1 ++ comma :: es.text

/-- What stands between the braces. -/
def Members.text : Members → List UInt8
  | .empty w => w.1
  | .last k v w => k.text ++ v.text ++ w.1
  | .cons k v w ms => k.text ++ v.text ++ w.1 ++ comma :: ms.text

end

/-! ## Skipping -/

/-- The brackets that `skip_value` counts. -/
def IsPair (o c : UInt8) : Prop := (o = openBrace ∧ c = closeBrace) ∨ (o = openBracket ∧ c = closeBracket)

/-- A property that white space, atoms and strings have, and that texts composed of such have too. -/
structure TextRule (P : List UInt8 → Prop) : Prop where
  ws : ∀ w : Ws, P w.1
  atom : ∀ a : Atom, P a.1
  str : ∀ s : Str, P s.text
  separator : ∀ b ∈ [comma, colon], P [b]
  append : ∀ {u v : List UInt8}, P u → P v → P (u ++ v)
  enclosed : ∀ {x y : UInt8} {inner : List UInt8}, IsPair x y → P inner → P (x :: inner ++ [y])

section

variable {P : List UInt8 → Prop}

theorem TextRule.cons (h : TextRule P) {b : UInt8} (hb : b ∈ [comma, colon]) {u : List UInt8} (hu : P u) : P (b :: u) :=
  h.append (h.separator b hb) hu

theorem TextRule.key (h : TextRule P) (k : Key) : P k.text :=
  h.append (h.append (h.append (h.ws k.before) (h.str k.name)) (h.ws k.between)) (h.cons (by decide) (h.ws k.after))

mutual

theorem TextRule.value (h : TextRule P) : ∀ v : Value, P v.text
  | .atom a => by
    rw [Value.text]
    exact h.atom a
  | .str s => by
    rw [Value.text]
    exact h.str s
  | .arr es => by
    rw [Value.text]
    exact h.enclosed (.inr ⟨rfl, rfl⟩) (h.elements es)
  | .obj ms => by
    rw [Value.text]
    exact h.enclosed (.inl ⟨rfl, rfl⟩) (h.members ms)

theorem TextRule.elements (h : TextRule P) : ∀ es : Elements, P es.text
  | .empty w => by
    rw [Elements.text]
    exact h.ws w
  | .last w v w' => by
    rw [Elements.text]
    exact h.append (h.append (h.ws w) (h.value v)) (h.ws w')
  | .cons w v w' es => by
    rw [Elements.text]
    exact h.append (h.append (h.append (h.ws w) (h.value v)) (h.ws w')) (h.cons (by decide) (h.elements es))

theorem TextRule.members (h : TextRule P) : ∀ ms : Members, P ms.text
  | .empty w => by
    rw [Members.text]
    exact h.ws w
  | .last k v w => by
    rw [Members.text]
    exact h.append (h.append (h.key k) (h.value v)) (h.ws w)
  | .cons k v w ms => by
    rw [Members.text]
    exact h.append (h.append (h.append (h.key k) (h.value v)) (h.ws w)) (h.cons (by decide) (h.members ms))

end

end

section

variable {o c : UInt8}

theorem skipNested_plain {b : UInt8} (hb : b ≠ 0 ∧ b ≠ o ∧ b ≠ c ∧ b ≠ quote) (depth : Int)
    (rest : List UInt8) : Reaches List.length (skipNestedStep o c) depth (b :: rest) depth rest := by
  refine .one ?_ (Nat.lt_succ_self _)
  unfold skipNestedStep
  refine Runs.bind (peek_runs b rest) ?_
  rw [if_neg hb.1, if_neg hb.2.1, if_neg hb.2.2.1, if_neg hb.2.2.2]
  exact Runs.bind (next_runs ..) Runs.ret

theorem skipNested_bytes (hp : IsPair o c) (depth : Int) (rest : List UInt8) : ∀ {l : List UInt8},
    (∀ b ∈ l, b ≠ 0 ∧ b ≠ o ∧ b ≠ c ∧ b ≠ quote) →
    Reaches List.length (skipNestedStep o c) depth (l ++ rest) depth rest
  | [], _ => .refl depth rest
  | b :: l, h => (skipNested_plain (h b List.mem_cons_self) depth (l ++ rest)).trans
      (skipNested_bytes hp depth rest fun d hd => h d (List.mem_cons_of_mem _ hd))

theorem IsPair.ne_of_le (hp : IsPair o c) {b : UInt8} (hb : b ≠ 0 ∧ b ≤ 0x20) :
    b ≠ 0 ∧ b ≠ o ∧ b ≠ c ∧ b ≠ quote := by
  have hne : ∀ d : UInt8, ¬ d ≤ 0x20 → b ≠ d := by
    rintro d hd rfl
    exact hd hb.2
  rcases hp with ⟨rfl, rfl⟩ | ⟨rfl, rfl⟩
  · exact ⟨hb.1, hne _ (by decide), hne _ (by decide), hne _ (by decide)⟩
  · exact ⟨hb.1, hne _ (by decide), hne _ (by decide), hne _ (by decide)⟩

theorem IsPair.ne_of_atom (hp : IsPair o c) {b : UInt8} (hb : AtomByte b) : b ≠ 0 ∧ b ≠ o ∧ b ≠ c ∧ b ≠ quote := by
  have hzero : b ≠ 0 := by
    rintro rfl
    exact hb.1 (by decide)
  have hne : ∀ d ∈ [quote, comma, openBrace, closeBrace, openBracket, closeBracket], b ≠ d := by
    rintro d hd rfl
    exact hb.2 hd
  rcases hp with ⟨rfl, rfl⟩ | ⟨rfl, rfl⟩
  · exact ⟨hzero, hne _ (by decide), hne _ (by decide), hne _ (by decide)⟩
  · exact ⟨hzero, hne _ (by decide), hne _ (by decide), hne _ (by decide)⟩

theorem IsPair.separator (hp : IsPair o c) : (∀ b ∈ [comma, colon], b ≠ 0 ∧ b ≠ o ∧ b ≠ c ∧ b ≠ quote) := by
  rcases hp with ⟨rfl, rfl⟩ | ⟨rfl, rfl⟩ <;> decide +kernel

theorem skipNested_ws (hp : IsPair o c) (w : Ws) (depth : Int) (rest : List UInt8) :
    Reaches List.length (skipNestedStep o c) depth (w.1 ++ rest) depth rest :=
  skipNested_bytes hp depth rest fun b hb => hp.ne_of_le (w.2 b hb)

theorem skipNested_str (hp : IsPair o c) (s : Str) (depth : Int) (rest : List UInt8) :
    Reaches List.length (skipNestedStep o c) depth (s.text ++ rest) depth rest := by
  have hrun := parseString_runs 4096 ⟨[], nofun⟩ s rest
  rw [List.nil_append] at hrun
  refine .one ?_ ?_
  · unfold skipNestedStep
    rw [Str.text_append] at hrun ⊢
    refine Runs.bind (peek_runs quote _) ?_
    rw [if_neg (by decide), if_neg, if_neg, if_pos rfl]
    · exact Runs.bind hrun Runs.ret
    · rcases hp with ⟨rfl, rfl⟩ | ⟨rfl, rfl⟩ <;> decide
    · rcases hp with ⟨rfl, rfl⟩ | ⟨rfl, rfl⟩ <;> decide
  · rw [Str.text_append]
    simp only [List.length_cons, List.length_append]
    omega

theorem skipNested_open (hp : IsPair o c) (depth : Int) (rest : List UInt8) :
    Reaches List.length (skipNestedStep o c) depth (o :: rest) (depth + 1) rest := by
  refine .one ?_ (Nat.lt_succ_self _)
  unfold skipNestedStep
  refine Runs.bind (peek_runs o rest) ?_
  rw [if_neg (by rcases hp with ⟨rfl, rfl⟩ | ⟨rfl, rfl⟩ <;> decide), if_pos rfl]
  exact Runs.bind (next_runs ..) Runs.ret

theorem skipNestedStep_close (hp : IsPair o c) (depth : Int) (rest : List UInt8) :
    Runs (skipNestedStep o c depth) (c :: rest) (if depth - 1 = 0 then .inr () else .inl (depth - 1)) rest := by
  unfold skipNestedStep
  refine Runs.bind (peek_runs c rest) ?_
  rw [if_neg (by rcases hp with ⟨rfl, rfl⟩ | ⟨rfl, rfl⟩ <;> decide),
    if_neg (by rcases hp with ⟨rfl, rfl⟩ | ⟨rfl, rfl⟩ <;> decide), if_pos rfl]
  refine Runs.bind (next_runs ..) ?_
  split
  · exact Runs.ret
  · exact Runs.ret

/-- A bracketed text is passed at its depth if its inside is, at every depth. -/
theorem skipNested_enclosed (hp : IsPair o c) {x y : UInt8} (hxy : IsPair x y) {inner : List UInt8}
    (hinner : ∀ depth : Int, 0 < depth → ∀ rest,
      Reaches List.length (skipNestedStep o c) depth (inner ++ rest) depth rest)
    {depth : Int} (hd : 0 < depth) (rest : List UInt8) :
    Reaches List.length (skipNestedStep o c) depth (x :: inner ++ [y] ++ rest) depth rest := by
  rw [List.append_assoc]
  change Reaches _ _ depth (x :: (inner ++ y :: rest)) depth rest
  by_cases hsame : x = o ∧ y = c
  · obtain ⟨rfl, rfl⟩ := hsame
    refine (skipNested_open hp depth _).trans ((hinner (depth + 1) (by omega) _).trans (.one ?_ (Nat.lt_succ_self _)))
    have hclose := skipNestedStep_close hp (depth + 1) rest
    rwa [if_neg (by omega), show depth + 1 - 1 = depth by omega] at hclose
  · have hplain : ∀ b ∈ [x, y], b ≠ 0 ∧ b ≠ o ∧ b ≠ c ∧ b ≠ quote := by
      rcases hp with ⟨rfl, rfl⟩ | ⟨rfl, rfl⟩
      · rcases hxy with ⟨rfl, rfl⟩ | ⟨rfl, rfl⟩
        · exact absurd ⟨rfl, rfl⟩ hsame
        · decide +kernel
      · rcases hxy with ⟨rfl, rfl⟩ | ⟨rfl, rfl⟩
        · decide +kernel
        · exact absurd ⟨rfl, rfl⟩ hsame
    refine (skipNested_plain (hplain x (by simp)) depth _).trans ((hinner depth hd _).trans ?_)
    exact skipNested_plain (hplain y (by simp)) depth rest

/-- The counting loop passes the text at its depth. -/
def Passes (o c : UInt8) (u : List UInt8) : Prop :=
  ∀ depth : Int, 0 < depth → ∀ rest, Reaches List.length (skipNestedStep o c) depth (u ++ rest) depth rest

theorem passes_rule (hp : IsPair o c) : TextRule (Passes o c) where
  ws w depth _ rest := skipNested_ws hp w depth rest
  atom a depth _ rest := skipNested_bytes hp depth rest fun b hb => hp.ne_of_atom (a.2.2 b hb)
  str s depth _ rest := skipNested_str hp s depth rest
  separator b hb depth _ rest := skipNested_plain (hp.separator b hb) depth rest
  append hu hv depth hd rest := by
    rw [List.append_assoc]
    exact (hu depth hd _).trans (hv depth hd rest)
  enclosed hxy hinner _ hd rest := skipNested_enclosed hp hxy hinner hd rest

/-- A bracketed text is skipped as a whole. -/
theorem skipNested_runs (hp : IsPair o c) {inner : List UInt8}
    (hinner : ∀ depth : Int, 0 < depth → ∀ rest,
      Reaches List.length (skipNestedStep o c) depth (inner ++ rest) depth rest) (rest : List UInt8) :
    Runs (scan (skipNestedStep o c) 0) (o :: inner ++ [c] ++ rest) () rest := by
  rw [List.append_assoc]
  refine ((skipNested_open hp 0 _).trans (hinner 1 (by decide) (c :: rest))).runs ?_
  have hclose := skipNestedStep_close hp 1 rest
  rwa [if_pos (by decide)] at hclose

end

/-! ## `skip_value` -/

/-- What may follow a value and its white space. -/
def EndsValue (rest : List UInt8) : Prop := rest.headD 0 ∈ [0, comma, closeBrace, closeBracket]

theorem EndsValue.noWs {rest : List UInt8} (h : EndsValue rest) : NoWs rest := by
  unfold EndsValue at h
  unfold NoWs
  simp only [List.mem_cons, List.not_mem_nil, or_false] at h
  rcases h with h | h | h | h <;> rw [h] <;> decide

theorem skipAtom_runs {rest : List UInt8} (hrest : EndsValue rest) : ∀ {l : List UInt8},
    (∀ b ∈ l, b ≠ 0 ∧ b ≠ comma ∧ b ≠ closeBrace ∧ b ≠ closeBracket) → Runs (scan skipAtomStep ()) (l ++ rest) () rest := by
  intro l hl
  have hloop : ∀ {l : List UInt8}, (∀ b ∈ l, b ≠ 0 ∧ b ≠ comma ∧ b ≠ closeBrace ∧ b ≠ closeBracket) →
      Reaches List.length skipAtomStep () (l ++ rest) () rest := by
    intro l
    induction l with
    | nil => exact fun _ => .refl () rest
    | cons b l ih =>
      intro h
      refine .step (u := l ++ rest) ?_ (Nat.lt_succ_self _) (ih fun d hd => h d (List.mem_cons_of_mem _ hd))
      unfold skipAtomStep
      refine Runs.bind (peek_runs b (l ++ rest)) ?_
      rw [if_pos (h b List.mem_cons_self)]
      exact Runs.bind (next_runs ..) Runs.ret
  refine (hloop hl).runs ?_
  unfold skipAtomStep
  refine Runs.bind (peek_headD rest) ?_
  rw [if_neg]
  · exact Runs.ret
  · unfold EndsValue at hrest
    simp only [List.mem_cons, List.not_mem_nil, or_false] at hrest
    tauto

/-- The first byte of a value. -/
theorem Value.text_cons (v : Value) : ∃ b l, v.text = b :: l ∧ ¬ b ≤ 0x20 ∧ b ≠ comma ∧ b ≠ closeBrace ∧ b ≠ closeBracket := by
  cases v with
  | atom a =>
    obtain ⟨t, hne, ht⟩ := a
    cases t with
    | nil => exact absurd rfl hne
    | cons b l =>
      have hb := ht b List.mem_cons_self
      refine ⟨b, l, rfl, hb.1, ?_, ?_, ?_⟩ <;> rintro rfl <;> exact hb.2 (by decide)
  | str s => exact ⟨quote, _, rfl, by decide⟩
  | arr es => exact ⟨openBracket, _, by rw [Value.text]; rfl, by decide⟩
  | obj ms => exact ⟨openBrace, _, by rw [Value.text]; rfl, by decide⟩

theorem Value.noWs (v : Value) (rest : List UInt8) : NoWs (v.text ++ rest) := by
  obtain ⟨b, l, heq, hb, -⟩ := v.text_cons
  rw [heq]
  exact noWs_cons _ hb

/-- `skip_value` passes a value, and of what follows at most the white space. -/
theorem skipValue_runs (v : Value) (w : Ws) {rest : List UInt8} (hrest : EndsValue rest) :
    ∃ w' : Ws, Runs skipValue (v.text ++ w.1 ++ rest) () (w'.1 ++ rest) := by
  have hws : Runs skipWs (v.text ++ w.1 ++ rest) () (v.text ++ w.1 ++ rest) := by
    rw [List.append_assoc]
    exact skipWs_stays (v.noWs _)
  cases v with
  | atom a =>
    have hbytes : ∀ b ∈ a.1 ++ w.1, b ≠ 0 ∧ b ≠ comma ∧ b ≠ closeBrace ∧ b ≠ closeBracket := by
      intro b hb
      rcases List.mem_append.1 hb with hb | hb
      · have hatom := a.2.2 b hb
        refine ⟨?_, ?_, ?_, ?_⟩ <;> rintro rfl
        · exact hatom.1 (by decide)
        · exact hatom.2 (by decide)
        · exact hatom.2 (by decide)
        · exact hatom.2 (by decide)
      · have hw := w.2 b hb
        refine ⟨hw.1, ?_, ?_, ?_⟩ <;> rintro rfl <;> exact absurd hw.2 (by decide)
    refine ⟨⟨[], nofun⟩, Runs.bind hws (Runs.bind (peek_headD _) ?_)⟩
    obtain ⟨t, hne, ht⟩ := a
    cases t with
    | nil => exact absurd rfl hne
    | cons b l =>
      have hb := ht b List.mem_cons_self
      change Runs (if b = quote then _ else _) _ _ _
      rw [if_neg, if_neg, if_neg]
      · exact skipAtom_runs hrest hbytes
      · rintro rfl
        exact hb.2 (by decide)
      · rintro rfl
        exact hb.2 (by decide)
      · rintro rfl
        exact hb.2 (by decide)
  | str s =>
    have hhead : ((Value.str s).text ++ w.1 ++ rest).headD 0 = quote := by rw [Value.text]; rfl
    have hrun := parseString_runs 4096 ⟨[], nofun⟩ s (w.1 ++ rest)
    rw [List.nil_append, ← List.append_assoc] at hrun
    refine ⟨w, Runs.bind hws (Runs.bind (peek_headD _) ?_)⟩
    rw [if_pos hhead]
    exact Runs.bind hrun Runs.ret
  | arr es =>
    have hhead : ((Value.arr es).text ++ w.1 ++ rest).headD 0 = openBracket := by rw [Value.text]; rfl
    refine ⟨w, Runs.bind hws (Runs.bind (peek_headD _) ?_)⟩
    rw [hhead, if_neg (by decide), if_neg (by decide), if_pos rfl, Value.text, List.append_assoc]
    exact skipNested_runs (.inr ⟨rfl, rfl⟩) ((passes_rule (.inr ⟨rfl, rfl⟩)).elements es) (w.1 ++ rest)
  | obj ms =>
    have hhead : ((Value.obj ms).text ++ w.1 ++ rest).headD 0 = openBrace := by rw [Value.text]; rfl
    refine ⟨w, Runs.bind hws (Runs.bind (peek_headD _) ?_)⟩
    rw [hhead, if_neg (by decide), if_pos rfl, Value.text, List.append_assoc]
    exact skipNested_runs (.inl ⟨rfl, rfl⟩) ((passes_rule (.inl ⟨rfl, rfl⟩)).members ms) (w.1 ++ rest)

end BitForge.Api
