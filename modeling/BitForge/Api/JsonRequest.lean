/-
What a request object says, and that the parser reads it: the loops over the members of an object and
over the elements of an array as folds, up to the whole request.
-/
import BitForge.Api.JsonValue

namespace BitForge.Api

open BitForge.Lib

/-! ## The meaning of a request -/

def Members.fold {α : Type} (step : Str → Value → α → Option α) : Members → α → Option α
  | .empty _, a => some a
  | .last k v _, a => step k.name v a
  | .cons k v _ ms, a => (step k.name v a).bind (ms.fold step)

def Elements.fold {α : Type} (step : Value → α → Option α) : Elements → α → Option α
  | .empty _, a => some a
  | .last _ v _, a => step v a
  | .cons _ v _ es, a => (step v a).bind (es.fold step)

def Elements.length : Elements → Nat
  | .empty _ => 0
  | .last .. => 1
  | .cons _ _ _ es => es.length + 1

/-- The text from the `n`-th element on. -/
def Elements.textFrom : Nat → Elements → List UInt8
  | 0, es => es.text
  | n + 1, .cons _ _ _ es => es.textFrom n
  | _ + 1, .empty _ => []
  | _ + 1, .last .. => []

/-- How the strings and the numbers of a request are read, and which texts may follow its first
`CHAT_MAX_MESSAGES` messages. -/
structure Reading (F : Type) where
  str : Str → Option (List UInt8)
  float : Atom → F
  int : Atom → Int
  surplus : List UInt8 → Bool

section

variable {F : Type} (R : Reading F)

def imageUrlMember (name : Str) (v : Value) (msg : ChatMessage) : Option ChatMessage := do
  let name ← R.str name
  if name = ascii "url" then
    match v with
    | .str s => do
      let url ← R.str s
      some { msg with imageDataUrl := some url }
    | _ => none
  else some msg

def partMember (name : Str) (v : Value) (msg : ChatMessage) : Option ChatMessage := do
  let name ← R.str name
  if name = ascii "text" then
    match v with
    | .str s => do
      let text ← R.str s
      some { msg with content := some text }
    | _ => none
  else if name = ascii "image_url" then
    match v with
    | .obj ms => ms.fold (imageUrlMember R) msg
    | _ => none
  else some msg

def contentPart (v : Value) (msg : ChatMessage) : Option ChatMessage :=
  match v with
  | .obj ms => ms.fold (partMember R) msg
  | _ => none

def messageMember (name : Str) (v : Value) (msg : ChatMessage) : Option ChatMessage := do
  let name ← R.str name
  if name = ascii "role" then
    match v with
    | .str s => do
      let role ← R.str s
      some { msg with role := role.take 31 }
    | _ => none
  else if name = ascii "content" then
    match v with
    | .str s => do
      let content ← R.str s
      some { msg with content := some content }
    | .arr es => es.fold (contentPart R) msg
    | _ => none
  else some msg

def message (v : Value) (messages : List ChatMessage) : Option (List ChatMessage) :=
  match v with
  | .obj ms => do
    let msg ← ms.fold (messageMember R) { role := [], content := none, imageDataUrl := none }
    some (messages ++ [msg])
  | _ => none

def numberAtom (v : Value) : Option Atom :=
  match v with
  | .atom a => if a.1.all isNumberByte then some a else none
  | _ => none

def requestMember (name : Str) (v : Value) (req : ChatRequest F) : Option (ChatRequest F) := do
  let name ← R.str name
  if name = ascii "model" then
    match v with
    | .str s => do
      let model ← R.str s
      some { req with model := model.take 127 }
    | _ => none
  else if name = ascii "messages" then
    match v with
    | .arr es => do
      let messages ← es.fold (message R) req.messages
      if messages.length ≤ chatMaxMessages ∨ R.surplus (es.textFrom (chatMaxMessages - req.messages.length)) then
        some { req with messages := messages.take chatMaxMessages }
      else none
    | _ => none
  else if name = ascii "temperature" then do
    let a ← numberAtom v
    some { req with temperature := R.float a }
  else if name = ascii "top_p" then do
    let a ← numberAtom v
    some { req with topP := R.float a }
  else if name = ascii "max_tokens" then do
    let a ← numberAtom v
    some { req with maxTokens := R.int a }
  else if name = ascii "stream" then
    match v with
    | .atom a =>
      if a.1 = ascii "true" then some { req with stream := true }
      else if a.1 = ascii "false" then some { req with stream := false }
      else none
    | _ => none
  else some req

/-- The request that an object stands for, if the members that are read have their documented types. -/
def decodeRequest (ms : Members) (req : ChatRequest F) : Option (ChatRequest F) := ms.fold (requestMember R) req

end

/-- The escapes of RFC 8259, section 7. -/
def rfcEscapes : List (UInt8 × UInt8) :=
  [(0x22, 0x22), (0x5C, 0x5C), (0x2F, 0x2F), (0x62, 0x08), (0x66, 0x0C), (0x6E, 0x0A), (0x72, 0x0D), (0x74, 0x09)]

/-- The byte that a character of a string stands for, `\u` escapes apart. -/
def StrItem.value : StrItem → Option UInt8
  | plain c _ => some c
  | escape c _ => rfcEscapes.lookup c
  | unicode .. => none

/-- The reference: strings without `\u` escapes, whole numbers, any number of messages. -/
def documented {F : Type} (atof : Atof F) : Reading F where
  str s := s.mapM StrItem.value
  float a := atof.float a.1
  int a := atof.int a.1
  surplus _ := true

/-- What the parser makes of strings and numbers, and the texts in which it finds the end of the messages. -/
def parsed {F : Type} (atof : Atof F) : Reading F where
  str s := some s.decoded
  float a := atof.float (a.1.take 63)
  int a := atof.int (a.1.take 63)
  surplus t := !t.contains closeBracket

/-! ## No text holds a NUL -/

theorem Str.noNul (s : Str) : 0 ∉ s.text := by
  have hitem : ∀ item : StrItem, 0 ∉ item.text := by
    intro item
    cases item with
    | plain c h => exact fun hmem => h.1 (List.mem_singleton.1 hmem).symm
    | escape c h =>
      intro hmem
      simp only [StrItem.text, List.mem_cons, List.not_mem_nil, or_false] at hmem
      exact hmem.elim (by decide) fun heq => h.1 heq.symm
    | unicode c₁ c₂ c₃ c₄ h =>
      intro hmem
      change 0 ∈ [backslash, 0x75] ++ [c₁, c₂, c₃, c₄] at hmem
      rcases List.mem_append.1 hmem with hmem | hmem
      · exact absurd hmem (by decide)
      · exact (h 0 hmem).1 rfl
  unfold Str.text Str.body
  simp only [List.mem_append, List.mem_cons, List.mem_flatMap, List.not_mem_nil, or_false]
  rintro ((h | ⟨item, -, h⟩) | h)
  · exact absurd h (by decide)
  · exact hitem item h
  · exact absurd h (by decide)

theorem Ws.noNul (w : Ws) : 0 ∉ w.1 := fun h => (w.2 0 h).1 rfl

theorem noNul_rule : TextRule (0 ∉ ·) where
  ws w := w.noNul
  atom a h := (a.2.2 0 h).1 (by decide)
  str s := s.noNul
  separator b hb h := by
    rw [← List.mem_singleton.1 h] at hb
    exact absurd hb (by decide)
  append hu hv := by
    rw [List.mem_append, not_or]
    exact ⟨hu, hv⟩
  enclosed hxy hinner := by
    rw [List.mem_append, List.mem_cons, List.mem_singleton, not_or, not_or]
    rcases hxy with ⟨rfl, rfl⟩ | ⟨rfl, rfl⟩
    · exact ⟨⟨by decide, hinner⟩, by decide⟩
    · exact ⟨⟨by decide, hinner⟩, by decide⟩

/-! ## Keys -/

theorem StrItem.decoded_ne_zero (item : StrItem) : item.decoded ≠ 0 := by
  cases item with
  | plain c h => exact h.1
  | escape c h =>
    change unescape c ≠ 0
    have hall : ∀ c : UInt8, c ≠ 0 → unescape c ≠ 0 := uint8_forall (by decide +kernel)
    exact hall c h.1
  | unicode c₁ c₂ c₃ c₄ h => exact (by decide : (0x3F : UInt8) ≠ 0)

/-- A key longer than the key buffer is none of the known ones. -/
theorem keyIs_decoded {cap : Nat} {name : String} (hcap : (ascii name).length < cap - 1) (s : Str) :
    keyIs (s.decoded.take (cap - 1)) name = true ↔ s.decoded = ascii name := by
  have hnul : 0 ∉ s.decoded.take (cap - 1) := by
    intro h
    obtain ⟨item, -, hitem⟩ := List.mem_map.1 (List.mem_of_mem_take h)
    exact item.decoded_ne_zero hitem
  unfold keyIs
  rw [untilNul_of_noNul hnul, beq_iff_eq]
  constructor
  · intro h
    have hlen := congrArg List.length h
    rw [List.length_take] at hlen
    rwa [List.take_of_length_le (by omega)] at h
  · intro h
    rw [h, List.take_of_length_le (by omega)]

/-! ## The members of an object -/

section

variable {α : Type} {cap : Nat} {field : List UInt8 → α → Parser α} {step : Str → Value → α → Option α}

/-- The field function reads the value of a member, and of what follows at most the white space. -/
def FieldRuns (cap : Nat) (field : List UInt8 → α → Parser α) (name : Str) (v : Value) (a a' : α) : Prop :=
  ∀ (w : Ws) (rest : List UInt8), EndsValue rest →
    ∃ w' : Ws, Runs (field (name.decoded.take (cap - 1)) a) (v.text ++ w.1 ++ rest) a' (w'.1 ++ rest)

/-- The text behind a comma. -/
def afterComma (rest : List UInt8) : List UInt8 := if rest.headD 0 = comma then rest.tail else rest

theorem length_afterComma_le (rest : List UInt8) : (afterComma rest).length ≤ rest.length := by
  unfold afterComma
  split
  · rw [List.length_tail]
    omega
  · exact Nat.le_refl _

theorem skipComma_runs (w : Ws) {rest : List UInt8} (hrest : NoWs rest) :
    Runs skipComma (w.1 ++ rest) () (afterComma rest) := by
  refine Runs.bind (skipWs_runs w hrest) (Runs.bind (peek_headD rest) ?_)
  unfold afterComma
  split
  · exact ⟨rfl, List.drop_one⟩
  · exact Runs.ret

theorem orFail_runs {r : Parser (Option α)} {s s' : List UInt8} {a : α} (h : Runs r s (some a) s') :
    Runs (orFail r) s a s' := Runs.bind h Runs.ret

/-- The key of a member starts the text of it. -/
theorem Key.head_cons (k : Key) (rest : List UInt8) :
    (k.text ++ rest).headD 0 ≠ 0 ∧ (k.text ++ rest).headD 0 ≠ closeBrace := by
  unfold Key.text Key.head
  rcases k with ⟨⟨before, hbefore⟩, name, between, after⟩
  cases before with
  | nil =>
    simp only [List.nil_append, List.append_assoc, Str.text_append]
    exact ⟨by change quote ≠ 0; decide, by change quote ≠ closeBrace; decide⟩
  | cons c before =>
    have hc := hbefore c List.mem_cons_self
    refine ⟨hc.1, ?_⟩
    rintro (rfl : c = closeBrace)
    exact absurd hc.2 (by decide)

/-- The name of a member is read, with the colon and the white space behind it. -/
theorem fieldStep_continues (k : Key) (a : α) (w : Ws) {s : List UInt8} (hs : NoWs s) :
    Continues (fieldStep cap field a) (k.head ++ colon :: (w.1 ++ s)) (do
      let a ← field (k.name.decoded.take (cap - 1)) a
      skipComma
      pure (.inl a)) s := by
  have hhead := Key.head_cons { k with after := w } s
  unfold Key.text Key.head at hhead
  unfold Key.head
  simp only [List.append_assoc, List.cons_append] at hhead ⊢
  refine (peek_headD _).continues.trans ?_
  rw [if_pos hhead]
  refine (skipWs_runs k.before ?_).continues.trans ((peek_headD _).continues.trans ?_)
  · rw [Str.text_append]
    exact noWs_cons _ (by decide)
  rw [if_neg (by rw [Str.text_append]; change ¬ quote = closeBrace; decide)]
  have hkey := parseString_runs cap ⟨[], nofun⟩ k.name (k.between.1 ++ colon :: (w.1 ++ s))
  rw [List.nil_append] at hkey
  refine (orFail_runs hkey).continues.trans ((expectChar_runs (by decide) k.between _).continues.trans ?_)
  exact (skipWs_runs w hs).continues

/-- One member with the comma behind it. -/
theorem member_reaches {k : Key} {v : Value} {a a' : α} (h : FieldRuns cap field k.name v a a') (w : Ws)
    {rest : List UInt8} (hrest : EndsValue rest) :
    Reaches List.length (fieldStep cap field) a (k.text ++ v.text ++ w.1 ++ rest) a' (afterComma rest) := by
  obtain ⟨w', hfield⟩ := h w rest hrest
  refine .one ?_ ?_
  · have hkey := @fieldStep_continues _ cap field k a k.after _ (v.noWs (w.1 ++ rest))
    unfold Key.text
    simp only [List.append_assoc, List.cons_append] at hkey hfield ⊢
    exact hkey.runs (Runs.bind hfield (Runs.bind (skipComma_runs w' hrest.noWs) Runs.ret))
  · have hle := length_afterComma_le rest
    have hpos : 0 < k.text.length := by
      unfold Key.text
      simp only [List.length_append, List.length_cons]
      omega
    simp only [List.length_append]
    omega

theorem endsValue_cons {c : UInt8} (hc : c ∈ [comma, closeBrace, closeBracket]) (rest : List UInt8) :
    EndsValue (c :: rest) := List.mem_cons_of_mem _ hc

/-- The iterations over the members of an object fold them, up to the white space before the brace. -/
theorem members_reaches {I : α → Prop} (hfield : ∀ name v a a', I a → step name v a = some a' →
      FieldRuns cap field name v a a' ∧ I a') (rest : List UInt8) :
    ∀ (ms : Members) {a a' : α}, I a → ms.fold step a = some a' → ∃ w : Ws,
      Reaches List.length (fieldStep cap field) a (ms.text ++ closeBrace :: rest) a' (w.1 ++ closeBrace :: rest)
  | .empty w, a, a', _, h => by
    rw [Members.fold, Option.some.injEq] at h
    subst h
    exact ⟨w, by rw [Members.text]; exact .refl a _⟩
  | .last k v w, a, a', ha, h => by
    rw [Members.fold] at h
    rw [Members.text]
    exact ⟨⟨[], nofun⟩, member_reaches (hfield _ _ _ _ ha h).1 w (endsValue_cons (by decide) rest)⟩
  | .cons k v w ms, a, a', ha, h => by
    rw [Members.fold] at h
    obtain ⟨b, hb, hms⟩ := Option.bind_eq_some_iff.1 h
    obtain ⟨hrun, hinv⟩ := hfield _ _ _ _ ha hb
    obtain ⟨w', hreach⟩ := members_reaches hfield rest ms hinv hms
    refine ⟨w', ?_⟩
    rw [Members.text, List.append_assoc, List.cons_append]
    exact (member_reaches hrun w (endsValue_cons (by decide) _)).trans hreach

/-- The loop over the members of an object folds them. -/
theorem members_runs {I : α → Prop} (hfield : ∀ name v a a', I a → step name v a = some a' →
      FieldRuns cap field name v a a' ∧ I a') (ms : Members) {a a' : α} (ha : I a) (h : ms.fold step a = some a')
    (rest : List UInt8) :
    Runs (scan (fieldStep cap field) a) (ms.text ++ closeBrace :: rest) a' (closeBrace :: rest) := by
  obtain ⟨⟨w, hw⟩, hreach⟩ := members_reaches hfield rest ms ha h
  refine hreach.runs ?_
  -- white space before the brace costs another look
  cases w with
  | nil =>
    refine Runs.bind (peek_runs closeBrace rest) ?_
    rw [if_neg fun h => h.2 rfl]
    exact Runs.ret
  | cons c w =>
    have hc := hw c List.mem_cons_self
    refine Runs.bind (peek_runs c _) ?_
    rw [if_pos ⟨hc.1, by rintro rfl; exact absurd hc.2 (by decide)⟩]
    refine Runs.bind (skipWs_runs ⟨c :: w, hw⟩ (noWs_cons rest (by decide))) (Runs.bind (peek_runs closeBrace rest) ?_)
    rw [if_pos rfl]
    exact Runs.ret

end

/-! ## The elements of an array -/

/-- The elements without the white space in front of them. -/
def Elements.tight : Elements → List UInt8
  | .empty _ => []
  | .last _ v w' => v.text ++ w'.1
  | .cons _ v w' es => v.text ++ w'.1 ++ comma :: es.text

def Elements.lead : Elements → Ws
  | .empty w => w
  | .last w _ _ => w
  | .cons w _ _ _ => w

theorem Elements.length_pos (es : Elements) (h : es.tight ≠ []) : 0 < es.length := by
  cases es with
  | empty w => exact absurd rfl h
  | last w v w' => exact Nat.one_pos
  | cons w v w' es => exact Nat.succ_pos _

theorem Elements.text_eq (es : Elements) : es.text = es.lead.1 ++ es.tight := by
  cases es <;> simp only [Elements.text, Elements.lead, Elements.tight, List.append_assoc, List.append_nil]

theorem Elements.noWs_tight (es : Elements) (rest : List UInt8) : NoWs (es.tight ++ closeBracket :: rest) := by
  cases es with
  | empty w => exact noWs_cons rest (by decide)
  | last w v w' =>
    rw [Elements.tight, List.append_assoc]
    exact v.noWs _
  | cons w v w' es =>
    rw [Elements.tight, List.append_assoc, List.append_assoc]
    exact v.noWs _

/-- The separator behind an element that is not the last one. -/
theorem skipCommaWs_comma (w : Ws) (es : Elements) (rest : List UInt8) :
    Runs skipCommaWs (w.1 ++ comma :: (es.text ++ closeBracket :: rest)) () (es.tight ++ closeBracket :: rest) := by
  refine Runs.bind (skipWs_runs w (noWs_cons _ (by decide))) (Runs.bind (peek_runs comma _) ?_)
  rw [if_pos rfl, es.text_eq, List.append_assoc]
  exact Runs.bind (next_runs comma _) (skipWs_runs es.lead (es.noWs_tight rest))

/-- The separator behind the last element. -/
theorem skipCommaWs_bracket (w : Ws) (rest : List UInt8) :
    Runs skipCommaWs (w.1 ++ closeBracket :: rest) () (closeBracket :: rest) := by
  refine Runs.bind (skipWs_runs w (noWs_cons _ (by decide))) (Runs.bind (peek_runs closeBracket _) ?_)
  rw [if_neg (by decide)]
  exact Runs.ret

end BitForge.Api
