/-
The parser reads what a request says: the fields of each kind of object, the arrays of messages and of
content parts, and the whole request.
-/
import BitForge.Api.JsonRequest

namespace BitForge.Api

open BitForge.Lib

/-! ## Fields -/

section

variable {F : Type} {atof : Atof F}

theorem skipValue_field {α : Type} (v : Value) (a : α) (w : Ws) {rest : List UInt8} (hrest : EndsValue rest) :
    ∃ w' : Ws, Runs (do
      skipValue
      pure a) (v.text ++ w.1 ++ rest) a (w'.1 ++ rest) := by
  obtain ⟨w', hskip⟩ := skipValue_runs v w hrest
  exact ⟨w', Runs.bind hskip Runs.ret⟩

/-- A field that holds a string on the heap. -/
theorem parseStringHeap_field {α : Type} (set : List UInt8 → α) (s : Str) (w : Ws) (rest : List UInt8) :
    Runs (do
      let t ← orFail parseStringHeap
      pure (set t)) ((Value.str s).text ++ w.1 ++ rest) (set s.decoded) (w.1 ++ rest) := by
  have hrun := parseStringHeap_runs ⟨[], nofun⟩ s (w.1 ++ rest)
  rw [List.nil_append, ← List.append_assoc] at hrun
  rw [Value.text]
  exact Runs.bind (orFail_runs hrun) Runs.ret

/-- A field that holds a string in a buffer. -/
theorem parseString_field {α : Type} (cap : Nat) (set : List UInt8 → α) (s : Str) (w : Ws) (rest : List UInt8) :
    Runs (do
      let t ← orFail (parseString cap)
      pure (set t)) ((Value.str s).text ++ w.1 ++ rest) (set (s.decoded.take (cap - 1))) (w.1 ++ rest) := by
  have hrun := parseString_runs cap ⟨[], nofun⟩ s (w.1 ++ rest)
  rw [List.nil_append, ← List.append_assoc] at hrun
  rw [Value.text]
  exact Runs.bind (orFail_runs hrun) Runs.ret

theorem imageUrlField_runs {name : Str} {v : Value} {msg msg' : ChatMessage}
    (h : imageUrlMember (parsed atof) name v msg = some msg') : FieldRuns 32 imageUrlField name v msg msg' := by
  intro w rest hrest
  simp only [imageUrlMember, parsed, Option.bind_eq_bind, Option.bind_some] at h
  unfold imageUrlField
  by_cases hurl : name.decoded = ascii "url"
  · rw [if_pos hurl] at h
    rw [if_pos ((keyIs_decoded (by decide) name).2 hurl)]
    cases v with
    | str s =>
      obtain rfl := Option.some.inj h
      exact ⟨w, parseStringHeap_field _ s w rest⟩
    | atom a => exact nomatch h
    | arr es => exact nomatch h
    | obj ms => exact nomatch h
  · rw [if_neg hurl] at h
    obtain rfl := Option.some.inj h
    rw [if_neg fun hkey => hurl ((keyIs_decoded (by decide) name).1 hkey)]
    exact skipValue_field v msg w hrest

section

variable {α : Type} {cap : Nat} {field : List UInt8 → α → Parser α} {step : Str → Value → α → Option α}

theorem members_scan (hfield : ∀ name v a a', step name v a = some a' → FieldRuns cap field name v a a') (ms : Members)
    {a a' : α} (h : ms.fold step a = some a') (rest : List UInt8) :
    Runs (scan (fieldStep cap field) a) (ms.text ++ closeBrace :: rest) a' (closeBrace :: rest) :=
  members_runs (I := fun _ => True) (fun name v a a' _ hstep => ⟨hfield name v a a' hstep, trivial⟩) ms trivial h rest

/-- An object is read up to and with its closing brace. -/
theorem object_runs (hfield : ∀ name v a a', step name v a = some a' → FieldRuns cap field name v a a') (ms : Members)
    {a a' : α} (h : ms.fold step a = some a') (rest : List UInt8) :
    Runs (do
      let a ← scan (fieldStep cap field) a
      expectChar closeBrace
      pure a) (ms.text ++ closeBrace :: rest) a' rest :=
  Runs.bind (members_scan hfield ms h rest) (Runs.bind (expectChar_runs (by decide) ⟨[], nofun⟩ rest) Runs.ret)

end

theorem partField_runs {name : Str} {v : Value} {msg msg' : ChatMessage}
    (h : partMember (parsed atof) name v msg = some msg') : FieldRuns 64 partField name v msg msg' := by
  intro w rest hrest
  simp only [partMember, parsed, Option.bind_eq_bind, Option.bind_some] at h
  unfold partField
  by_cases htext : name.decoded = ascii "text"
  · rw [if_pos htext] at h
    rw [if_pos ((keyIs_decoded (by decide) name).2 htext)]
    cases v with
    | str s =>
      obtain rfl := Option.some.inj h
      exact ⟨w, parseStringHeap_field _ s w rest⟩
    | atom a => exact nomatch h
    | arr es => exact nomatch h
    | obj ms => exact nomatch h
  · rw [if_neg htext] at h
    rw [if_neg fun hkey => htext ((keyIs_decoded (by decide) name).1 hkey)]
    unfold atImageObject
    by_cases himage : name.decoded = ascii "image_url"
    · rw [if_pos himage] at h
      rw [if_pos ((keyIs_decoded (by decide) name).2 himage)]
      cases v with
      | str s => exact nomatch h
      | atom a => exact nomatch h
      | arr es => exact nomatch h
      | obj ms =>
        rw [Value.text]
        refine ⟨w, Runs.bind (Runs.bind (peek_headD _) Runs.ret) ?_⟩
        rw [if_pos (by rfl)]
        simp only [List.append_assoc, List.cons_append]
        refine Runs.bind (next_runs openBrace _) ?_
        exact object_runs (fun name v a a' => imageUrlField_runs) ms h (w.1 ++ rest)
    · rw [if_neg himage] at h
      obtain rfl := Option.some.inj h
      rw [if_neg fun hkey => himage ((keyIs_decoded (by decide) name).1 hkey)]
      refine Exists.imp (fun w' hrun => ?_) (skipValue_field v msg w hrest)
      refine Runs.bind Runs.ret ?_
      rw [if_neg Bool.false_ne_true]
      exact hrun

/-! ## Arrays -/

/-- An iteration reads an element and the separator behind it. -/
def ElementRuns {α : Type} (step : α → Parser (α ⊕ α)) (v : Value) (a a' : α) : Prop :=
  ∀ (w : Ws) (rest s' : List UInt8), Runs skipCommaWs (w.1 ++ rest) () s' →
    Runs (step a) (v.text ++ w.1 ++ rest) (.inl a') s'

theorem length_append_lt {v : Value} {w rest s' : List UInt8} (h : s'.length ≤ rest.length) :
    s'.length < (v.text ++ w ++ rest).length := by
  obtain ⟨b, l, heq, -⟩ := v.text_cons
  rw [heq]
  simp only [List.length_append, List.length_cons]
  omega

theorem Elements.length_tight_le (es : Elements) (rest : List UInt8) :
    (es.tight ++ closeBracket :: rest).length ≤ (comma :: (es.text ++ closeBracket :: rest)).length := by
  rw [es.text_eq]
  simp only [List.length_append, List.length_cons]
  omega

/-- The iterations over the elements of an array fold them. -/
theorem elements_reaches {α : Type} {step : α → Parser (α ⊕ α)} {elem : Value → α → Option α}
    (helem : ∀ v a a', elem v a = some a' → ElementRuns step v a a') (rest : List UInt8) :
    ∀ (es : Elements) {a a' : α}, es.fold elem a = some a' →
      Reaches List.length step a (es.tight ++ closeBracket :: rest) a' (closeBracket :: rest)
  | .empty w, a, a', h => by
    rw [Elements.fold, Option.some.injEq] at h
    subst h
    exact .refl a _
  | .last w v w', a, a', h => by
    rw [Elements.fold] at h
    have hrun := helem v a a' h w' (closeBracket :: rest) _ (skipCommaWs_bracket w' rest)
    rw [Elements.tight]
    exact .one hrun (length_append_lt (Nat.le_refl _))
  | .cons w v w' es, a, a', h => by
    rw [Elements.fold] at h
    obtain ⟨b, hb, hes⟩ := Option.bind_eq_some_iff.1 h
    have hrun := helem v a b hb w' _ _ (skipCommaWs_comma w' es rest)
    rw [Elements.tight, List.append_assoc, List.cons_append]
    exact .step hrun (length_append_lt (es.length_tight_le rest)) (elements_reaches helem rest es hes)

theorem contentPart_runs {v : Value} {msg msg' : ChatMessage} (h : contentPart (parsed atof) v msg = some msg') :
    ElementRuns partsStep v msg msg' := by
  intro w rest s' hsep
  cases v with
  | str s => exact nomatch h
  | atom a => exact nomatch h
  | arr es => exact nomatch h
  | obj ms =>
    rw [Value.text]
    simp only [List.append_assoc, List.cons_append]
    refine Runs.bind (peek_runs openBrace _) ?_
    rw [if_pos (by decide)]
    refine Runs.bind (expectChar_runs (by decide) ⟨[], nofun⟩ _) ?_
    refine Runs.bind (members_scan (fun name v a a' => partField_runs) ms h _) (Runs.bind (expectChar_runs (by decide) ⟨[], nofun⟩ _) ?_)
    exact Runs.bind hsep Runs.ret

theorem parseContentParts_runs {es : Elements} {msg msg' : ChatMessage}
    (h : es.fold (contentPart (parsed atof)) msg = some msg') (rest : List UInt8) :
    Runs (parseContentParts msg) (openBracket :: es.text ++ [closeBracket] ++ rest) msg' rest := by
  rw [es.text_eq]
  simp only [List.append_assoc, List.cons_append, List.nil_append]
  refine Runs.bind (expectChar_runs (by decide) ⟨[], nofun⟩ _) ?_
  refine Runs.bind (skipWs_runs es.lead (es.noWs_tight rest)) ?_
  refine Runs.bind ((elements_reaches (fun v a a' => contentPart_runs) rest es h).runs (b := msg')
    (t := closeBracket :: rest) ?_) ?_
  · refine Runs.bind (peek_runs closeBracket rest) ?_
    rw [if_neg fun h => h.2 rfl]
    exact Runs.ret
  · exact Runs.bind (expectChar_runs (by decide) ⟨[], nofun⟩ rest) Runs.ret

/-! ## Messages -/

theorem messageField_runs {name : Str} {v : Value} {msg msg' : ChatMessage}
    (h : messageMember (parsed atof) name v msg = some msg') : FieldRuns 64 messageField name v msg msg' := by
  intro w rest hrest
  simp only [messageMember, parsed, Option.bind_eq_bind, Option.bind_some] at h
  unfold messageField
  by_cases hrole : name.decoded = ascii "role"
  · rw [if_pos hrole] at h
    rw [if_pos ((keyIs_decoded (by decide) name).2 hrole)]
    cases v with
    | str s =>
      obtain rfl := Option.some.inj h
      exact ⟨w, parseString_field 32 (fun t => { msg with role := t }) s w rest⟩
    | atom a => exact nomatch h
    | arr es => exact nomatch h
    | obj ms => exact nomatch h
  · rw [if_neg hrole] at h
    rw [if_neg fun hkey => hrole ((keyIs_decoded (by decide) name).1 hkey)]
    by_cases hcontent : name.decoded = ascii "content"
    · rw [if_pos hcontent] at h
      rw [if_pos ((keyIs_decoded (by decide) name).2 hcontent)]
      have hws : Runs skipWs (v.text ++ w.1 ++ rest) () (v.text ++ w.1 ++ rest) := by
        rw [List.append_assoc]
        exact skipWs_stays (v.noWs _)
      refine ⟨w, Runs.bind hws (Runs.bind (peek_headD _) ?_)⟩
      cases v with
      | str s =>
        obtain rfl := Option.some.inj h
        rw [if_neg (by rw [Value.text]; change ¬ quote = openBracket; decide)]
        exact parseStringHeap_field (fun t => { msg with content := some t }) s w rest
      | atom a => exact nomatch h
      | arr es =>
        rw [if_pos (by rw [Value.text]; rfl), Value.text, List.append_assoc]
        exact parseContentParts_runs h (w.1 ++ rest)
      | obj ms => exact nomatch h
    · rw [if_neg hcontent] at h
      obtain rfl := Option.some.inj h
      rw [if_neg fun hkey => hcontent ((keyIs_decoded (by decide) name).1 hkey)]
      exact skipValue_field v msg w hrest

theorem message_appends {v : Value} {messages messages' : List ChatMessage}
    (h : message (parsed atof) v messages = some messages') : ∃ msg, messages' = messages ++ [msg] := by
  cases v with
  | obj ms =>
    obtain ⟨msg, -, hmsg⟩ := Option.bind_eq_some_iff.1 h
    exact ⟨msg, (Option.some.inj hmsg).symm⟩
  | str s => exact nomatch h
  | atom a => exact nomatch h
  | arr es => exact nomatch h

theorem message_length {v : Value} {messages messages' : List ChatMessage}
    (h : message (parsed atof) v messages = some messages') : messages'.length = messages.length + 1 := by
  obtain ⟨msg, rfl⟩ := message_appends h
  rw [List.length_append, List.length_singleton]

theorem messages_extend : ∀ (es : Elements) {messages all : List ChatMessage},
    es.fold (message (parsed atof)) messages = some all → ∃ more, all = messages ++ more ∧ more.length = es.length
  | .empty w, messages, all, h => by
    rw [Elements.fold, Option.some.injEq] at h
    exact ⟨[], by rw [List.append_nil, h], rfl⟩
  | .last w v w', messages, all, h => by
    rw [Elements.fold] at h
    obtain ⟨msg, hmsg⟩ := message_appends h
    exact ⟨[msg], hmsg, rfl⟩
  | .cons w v w' es, messages, all, h => by
    rw [Elements.fold] at h
    obtain ⟨b, hb, hes⟩ := Option.bind_eq_some_iff.1 h
    obtain ⟨msg, rfl⟩ := message_appends hb
    obtain ⟨more, hmore, hlen⟩ := messages_extend es hes
    exact ⟨[msg] ++ more, by rw [hmore, List.append_assoc], congrArg (· + 1) hlen⟩

theorem message_runs {v : Value} {messages messages' : List ChatMessage} (hroom : messages.length < chatMaxMessages)
    (h : message (parsed atof) v messages = some messages') : ElementRuns messagesStep v messages messages' := by
  intro w rest s' hsep
  cases v with
  | str s => exact nomatch h
  | atom a => exact nomatch h
  | arr es => exact nomatch h
  | obj ms =>
    obtain ⟨msg, hfold, hmsg⟩ := Option.bind_eq_some_iff.1 h
    obtain rfl := Option.some.inj hmsg
    rw [Value.text]
    simp only [List.append_assoc, List.cons_append]
    refine Runs.bind (peek_runs openBrace _) ?_
    rw [if_pos (by decide)]
    refine Runs.bind (expectChar_runs (by decide) ⟨[], nofun⟩ _) ?_
    rw [if_neg (Nat.not_le.2 hroom)]
    refine Runs.bind (members_scan (fun name v a a' => messageField_runs) ms hfold _) ?_
    exact Runs.bind (expectChar_runs (by decide) ⟨[], nofun⟩ _) (Runs.bind hsep Runs.ret)

theorem skipToBracket_reaches (rest : List UInt8) : ∀ {l : List UInt8}, (∀ b ∈ l, b ≠ 0 ∧ b ≠ closeBracket) →
    Reaches List.length skipToBracketStep () (l ++ rest) () rest
  | [], _ => .refl () rest
  | b :: l, h => by
    refine .step (u := l ++ rest) ?_ (Nat.lt_succ_self _)
      (skipToBracket_reaches rest fun d hd => h d (List.mem_cons_of_mem _ hd))
    refine Runs.bind (peek_runs b _) ?_
    rw [if_pos (h b List.mem_cons_self)]
    exact Runs.bind (next_runs ..) Runs.ret

/-- The surplus messages are skipped up to the first bracket. -/
theorem surplus_runs {messages : List ChatMessage} (hfull : chatMaxMessages ≤ messages.length) {l : List UInt8}
    (hl : ∀ b ∈ l, b ≠ 0 ∧ b ≠ closeBracket) (rest : List UInt8) :
    Runs (messagesStep messages) (openBrace :: (l ++ closeBracket :: rest)) (.inr messages) (closeBracket :: rest) := by
  refine Runs.bind (peek_runs openBrace _) ?_
  rw [if_pos (by decide)]
  refine Runs.bind (expectChar_runs (by decide) ⟨[], nofun⟩ _) ?_
  rw [if_pos hfull]
  refine Runs.bind (a := ()) ((skipToBracket_reaches (closeBracket :: rest) hl).runs ?_) Runs.ret
  refine Runs.bind (peek_runs closeBracket rest) ?_
  rw [if_neg fun h => h.2 rfl]
  exact Runs.ret

/-- The message objects start with a brace. -/
theorem messages_brace {es : Elements} {messages all : List ChatMessage}
    (h : es.fold (message (parsed atof)) messages = some all) (hnone : es.tight ≠ []) : ∃ l, es.tight = openBrace :: l := by
  have hobj : ∀ {v : Value} {b : List ChatMessage}, message (parsed atof) v messages = some b → ∀ t, ∃ l,
      v.text ++ t = openBrace :: l := by
    intro v b hv t
    cases v with
    | obj ms => exact ⟨ms.text ++ [closeBrace] ++ t, by rw [Value.text]; rfl⟩
    | str s => exact nomatch hv
    | atom a => exact nomatch hv
    | arr es => exact nomatch hv
  cases es with
  | empty w => exact absurd rfl hnone
  | last w v w' =>
    rw [Elements.fold] at h
    exact hobj h _
  | cons w v w' es =>
    rw [Elements.fold] at h
    obtain ⟨b, hb, -⟩ := Option.bind_eq_some_iff.1 h
    rw [Elements.tight, List.append_assoc]
    exact hobj hb _

theorem messagesStep_done (messages : List ChatMessage) (rest : List UInt8) :
    Runs (messagesStep messages) (closeBracket :: rest) (.inr messages) (closeBracket :: rest) := by
  refine Runs.bind (peek_runs closeBracket rest) ?_
  rw [if_neg fun h => h.2 rfl]
  exact Runs.ret

/-- The text of surplus messages that may be skipped. -/
theorem surplus_bytes {es : Elements} {messages all : List ChatMessage} (hfull : messages.length = chatMaxMessages)
    (h : es.fold (message (parsed atof)) messages = some all)
    (hskip : all.length ≤ chatMaxMessages ∨ closeBracket ∉ es.text) {l : List UInt8} (hl : es.tight = openBrace :: l) :
    ∀ b ∈ l, b ≠ 0 ∧ b ≠ closeBracket := by
  obtain ⟨more, rfl, hmore⟩ := messages_extend es h
  have hpos := es.length_pos (by rw [hl]; exact List.cons_ne_nil _ _)
  have hbracket : closeBracket ∉ es.text := by
    refine hskip.resolve_left fun hle => ?_
    rw [List.length_append] at hle
    omega
  have hnul := noNul_rule.elements es
  rw [es.text_eq, hl] at hbracket hnul
  intro b hb
  have hmem : b ∈ es.lead.1 ++ openBrace :: l := List.mem_append_right _ (List.mem_cons_of_mem _ hb)
  exact ⟨fun heq => hnul (heq ▸ hmem), fun heq => hbracket (heq ▸ hmem)⟩

/-- Behind a full array of messages the rest is skipped. -/
theorem messages_full {es : Elements} {messages all : List ChatMessage} (hfull : messages.length = chatMaxMessages)
    (h : es.fold (message (parsed atof)) messages = some all)
    (hskip : all.length ≤ chatMaxMessages ∨ closeBracket ∉ es.text) (rest : List UInt8) :
    Runs (messagesStep messages) (es.tight ++ closeBracket :: rest) (.inr (all.take chatMaxMessages))
      (closeBracket :: rest) := by
  have htake : all.take chatMaxMessages = messages := by
    obtain ⟨more, rfl, -⟩ := messages_extend es h
    rw [← hfull, List.take_left]
  rw [htake]
  by_cases hnone : es.tight = []
  · rw [hnone]
    exact messagesStep_done messages rest
  · obtain ⟨l, hl⟩ := messages_brace h hnone
    rw [hl]
    exact surplus_runs (Nat.le_of_eq hfull.symm) (surplus_bytes hfull h hskip hl) rest

theorem textFrom_cons (w : Ws) (v : Value) (w' : Ws) (es : Elements) {n : Nat} (hn : n < chatMaxMessages) :
    (Elements.cons w v w' es).textFrom (chatMaxMessages - n) = es.textFrom (chatMaxMessages - (n + 1)) := by
  rw [show chatMaxMessages - n = chatMaxMessages - (n + 1) + 1 by omega]
  rfl

/-- The loop over the messages keeps the first `CHAT_MAX_MESSAGES` of them. -/
theorem messages_reaches (rest : List UInt8) : ∀ (es : Elements) {messages all : List ChatMessage},
    messages.length ≤ chatMaxMessages → es.fold (message (parsed atof)) messages = some all →
    all.length ≤ chatMaxMessages ∨ closeBracket ∉ es.textFrom (chatMaxMessages - messages.length) →
    ∃ b s, Reaches List.length messagesStep messages (es.tight ++ closeBracket :: rest) b s ∧
      Runs (messagesStep b) s (.inr (all.take chatMaxMessages)) (closeBracket :: rest) := by
  intro es
  cases es with
  | empty w =>
    intro messages all hle h _
    rw [Elements.fold, Option.some.injEq] at h
    subst h
    refine ⟨messages, _, .refl .., ?_⟩
    rw [List.take_of_length_le hle]
    exact messagesStep_done messages rest
  | last w v w' =>
    intro messages all hle h hskip
    by_cases hfull : messages.length = chatMaxMessages
    · rw [hfull, Nat.sub_self] at hskip
      exact ⟨messages, _, .refl .., messages_full hfull h hskip rest⟩
    · rw [Elements.fold] at h
      have hrun := message_runs (by omega) h w' (closeBracket :: rest) _ (skipCommaWs_bracket w' rest)
      refine ⟨_, _, .one hrun (length_append_lt (Nat.le_refl _)), ?_⟩
      rw [List.take_of_length_le (by rw [message_length h]; omega)]
      exact messagesStep_done _ rest
  | cons w v w' es =>
    intro messages all hle h hskip
    by_cases hfull : messages.length = chatMaxMessages
    · rw [hfull, Nat.sub_self] at hskip
      exact ⟨messages, _, .refl .., messages_full hfull h hskip rest⟩
    · rw [Elements.fold] at h
      obtain ⟨b, hb, hes⟩ := Option.bind_eq_some_iff.1 h
      have hrun := message_runs (by omega) hb w' _ _ (skipCommaWs_comma w' es rest)
      have hlen := message_length hb
      rw [textFrom_cons w v w' es (by omega), ← hlen] at hskip
      obtain ⟨c, s, hreach, hdone⟩ := messages_reaches rest es (by omega) hes hskip
      refine ⟨c, s, ?_, hdone⟩
      rw [Elements.tight, List.append_assoc, List.cons_append]
      exact .step hrun (length_append_lt (es.length_tight_le rest)) hreach

/-- `parse_messages` reads the array of the messages. -/
theorem parseMessages_runs {es : Elements} {messages all : List ChatMessage} (hle : messages.length ≤ chatMaxMessages)
    (h : es.fold (message (parsed atof)) messages = some all)
    (hskip : all.length ≤ chatMaxMessages ∨ closeBracket ∉ es.textFrom (chatMaxMessages - messages.length))
    (rest : List UInt8) : Runs (parseMessages messages) (openBracket :: es.text ++ [closeBracket] ++ rest)
      (all.take chatMaxMessages) rest := by
  obtain ⟨b, s, hreach, hdone⟩ := messages_reaches rest es hle h hskip
  rw [es.text_eq]
  simp only [List.append_assoc, List.cons_append, List.nil_append]
  refine Runs.bind (expectChar_runs (by decide) ⟨[], nofun⟩ _) ?_
  refine Runs.bind (skipWs_runs es.lead (es.noWs_tight rest)) (Runs.bind (hreach.runs hdone) ?_)
  exact Runs.bind (expectChar_runs (by decide) ⟨[], nofun⟩ rest) Runs.ret

/-! ## Numbers and truth values -/

theorem isNumberByte_separates {rest : List UInt8} (hrest : EndsValue rest) (w : Ws) :
    isNumberByte ((w.1 ++ rest).headD 0) = false := by
  have hws : ∀ c : UInt8, c ≤ 0x20 → isNumberByte c = false := uint8_forall (by decide +kernel)
  rcases w with ⟨_ | ⟨c, w⟩, hw⟩
  · have hall : ∀ c ∈ [0, comma, closeBrace, closeBracket], isNumberByte c = false := by decide +kernel
    exact hall _ hrest
  · exact hws c (hw c List.mem_cons_self).2

theorem parseNumber_reaches (tail : List UInt8) : ∀ {l : List UInt8} (buf : List UInt8), l.all isNumberByte →
    Reaches List.length parseNumberStep buf (l ++ tail) (l.foldl (pushed 64) buf) tail
  | [], buf, _ => .refl buf tail
  | c :: l, buf, h => by
    rw [List.all_cons, Bool.and_eq_true] at h
    refine .step (u := l ++ tail) ?_ (Nat.lt_succ_self _) (parseNumber_reaches tail _ h.2)
    unfold parseNumberStep
    refine Runs.bind (peek_runs c _) ?_
    rw [if_pos ⟨by rintro rfl; exact absurd h.1 (by decide), h.1⟩]
    exact Runs.bind (push_runs ..) (Runs.bind (next_runs ..) Runs.ret)

/-- `parse_number` keeps the first 63 characters of a number. -/
theorem parseNumber_runs {a : Atom} (ha : a.1.all isNumberByte) (w : Ws) {rest : List UInt8} (hrest : EndsValue rest) :
    Runs parseNumber ((Value.atom a).text ++ w.1 ++ rest) (a.1.take 63) (w.1 ++ rest) := by
  have hws := (Value.atom a).noWs (w.1 ++ rest)
  rw [← List.append_assoc] at hws
  have hreach := parseNumber_reaches (w.1 ++ rest) [] ha
  rw [foldl_pushed (Nat.zero_le _), List.nil_append, ← List.append_assoc] at hreach
  refine Runs.bind (skipWs_stays hws) ?_
  rw [Value.text]
  refine hreach.runs ?_
  refine Runs.bind (peek_headD _) ?_
  rw [if_neg fun h => absurd h.2 (by rw [isNumberByte_separates hrest w]; exact Bool.false_ne_true)]
  exact Runs.bind Runs.emit Runs.ret

theorem strncmpEq_runs (t : List UInt8) : ∀ lit : List UInt8, Runs (strncmpEq lit) (lit ++ t) true t
  | [] => Runs.ret
  | c :: lit => by
    refine Runs.bind (peek_runs c _) ?_
    rw [if_pos rfl]
    exact Runs.bind (next_runs ..) (strncmpEq_runs t lit)

theorem parseBool_runs (b : Bool) (t : List UInt8) :
    Runs parseBool (ascii (if b then "true" else "false") ++ t) (some b) t := by
  have hws : NoWs (ascii (if b then "true" else "false") ++ t) := by
    cases b
    · exact noWs_cons (c := 0x66) _ (by decide)
    · exact noWs_cons (c := 0x74) _ (by decide)
  refine Runs.bind (skipWs_stays hws) ?_
  cases b with
  | true =>
    refine Runs.bind (strncmpEq_runs t (ascii "true")).onCopy ?_
    rw [if_pos rfl]
    exact Runs.bind ⟨rfl, rfl⟩ Runs.ret
  | false =>
    have htrue : Runs (strncmpEq (ascii "true")) (ascii "false" ++ t) false (ascii "false" ++ t) := ⟨rfl, rfl⟩
    refine Runs.bind htrue.onCopy ?_
    rw [if_neg Bool.false_ne_true]
    refine Runs.bind (strncmpEq_runs t (ascii "false")).onCopy ?_
    rw [if_pos rfl]
    exact Runs.bind ⟨rfl, rfl⟩ Runs.ret

/-! ## The request -/

theorem requestField_runs {name : Str} {v : Value} {req req' : ChatRequest F}
    (hle : req.messages.length ≤ chatMaxMessages) (h : requestMember (parsed atof) name v req = some req') :
    FieldRuns 128 (requestField atof) name v req req' ∧ req'.messages.length ≤ chatMaxMessages := by
  simp only [requestMember, Option.bind_eq_bind] at h
  change (if name.decoded = ascii "model" then _ else _) = some req' at h
  unfold FieldRuns requestField
  by_cases hmodel : name.decoded = ascii "model"
  · rw [if_pos hmodel] at h
    rw [if_pos ((keyIs_decoded (by decide) name).2 hmodel)]
    cases v with
    | str s =>
      obtain rfl := Option.some.inj h
      exact ⟨fun w rest _ => ⟨w, parseString_field 128 (fun t => { req with model := t }) s w rest⟩, hle⟩
    | atom a => exact nomatch h
    | arr es => exact nomatch h
    | obj ms => exact nomatch h
  rw [if_neg hmodel] at h
  rw [if_neg fun hkey => hmodel ((keyIs_decoded (by decide) name).1 hkey)]
  by_cases hmessages : name.decoded = ascii "messages"
  · rw [if_pos hmessages] at h
    rw [if_pos ((keyIs_decoded (by decide) name).2 hmessages)]
    cases v with
    | arr es =>
      obtain ⟨all, hall, h⟩ := Option.bind_eq_some_iff.1 h
      rw [Option.ite_none_right_eq_some] at h
      obtain ⟨hskip, h⟩ := h
      obtain rfl := Option.some.inj h
      refine ⟨fun w rest _ => ⟨w, ?_⟩, by rw [List.length_take]; exact Nat.min_le_left _ _⟩
      rw [Value.text, List.append_assoc]
      refine Runs.bind (parseMessages_runs hle hall ?_ (w.1 ++ rest)) Runs.ret
      refine hskip.imp_right fun hsurplus hmem => ?_
      rw [parsed, Bool.not_eq_true', ← Bool.not_eq_true, List.contains_iff_mem] at hsurplus
      exact hsurplus hmem
    | atom a => exact nomatch h
    | str s => exact nomatch h
    | obj ms => exact nomatch h
  rw [if_neg hmessages] at h
  rw [if_neg fun hkey => hmessages ((keyIs_decoded (by decide) name).1 hkey)]
  have hnumber : ∀ (set : List UInt8 → ChatRequest F) {f : Atom → ChatRequest F},
      (∀ a, f a = set (a.1.take 63)) → ((numberAtom v).bind fun a => some (f a)) = some req' →
      (∀ t, (set t).messages = req.messages) →
      (∀ (w : Ws) (rest : List UInt8), EndsValue rest → ∃ w' : Ws, Runs (do
        let text ← parseNumber
        pure (set text)) (v.text ++ w.1 ++ rest) req' (w'.1 ++ rest)) ∧ req'.messages.length ≤ chatMaxMessages := by
    intro set f hf hbind hset
    obtain ⟨a, ha, hreq⟩ := Option.bind_eq_some_iff.1 hbind
    obtain rfl := Option.some.inj hreq
    rw [hf, hset]
    refine ⟨fun w rest hrest => ⟨w, ?_⟩, hle⟩
    cases v with
    | atom b =>
      rw [numberAtom, Option.ite_none_right_eq_some, Option.some.injEq] at ha
      obtain ⟨hall, rfl⟩ := ha
      exact Runs.bind (parseNumber_runs hall w hrest) Runs.ret
    | arr es => exact nomatch ha
    | str s => exact nomatch ha
    | obj ms => exact nomatch ha
  by_cases htemperature : name.decoded = ascii "temperature"
  · rw [if_pos htemperature] at h
    rw [if_pos ((keyIs_decoded (by decide) name).2 htemperature)]
    exact hnumber (fun t => { req with temperature := atof.float t }) (fun _ => rfl) h fun _ => rfl
  rw [if_neg htemperature] at h
  rw [if_neg fun hkey => htemperature ((keyIs_decoded (by decide) name).1 hkey)]
  by_cases htopP : name.decoded = ascii "top_p"
  · rw [if_pos htopP] at h
    rw [if_pos ((keyIs_decoded (by decide) name).2 htopP)]
    exact hnumber (fun t => { req with topP := atof.float t }) (fun _ => rfl) h fun _ => rfl
  rw [if_neg htopP] at h
  rw [if_neg fun hkey => htopP ((keyIs_decoded (by decide) name).1 hkey)]
  by_cases hmaxTokens : name.decoded = ascii "max_tokens"
  · rw [if_pos hmaxTokens] at h
    rw [if_pos ((keyIs_decoded (by decide) name).2 hmaxTokens)]
    exact hnumber (fun t => { req with maxTokens := atof.int t }) (fun _ => rfl) h fun _ => rfl
  rw [if_neg hmaxTokens] at h
  rw [if_neg fun hkey => hmaxTokens ((keyIs_decoded (by decide) name).1 hkey)]
  by_cases hstream : name.decoded = ascii "stream"
  · rw [if_pos hstream] at h
    rw [if_pos ((keyIs_decoded (by decide) name).2 hstream)]
    have hbool : ∀ (b : Bool) (a : Atom), a.1 = ascii (if b then "true" else "false") → ∀ (w : Ws) (rest : List UInt8),
        Runs (do
          let b ← orFail parseBool
          pure { req with stream := b }) ((Value.atom a).text ++ w.1 ++ rest) { req with stream := b } (w.1 ++ rest) := by
      intro b a ha w rest
      rw [Value.text, ha, List.append_assoc]
      exact Runs.bind (orFail_runs (parseBool_runs b _)) Runs.ret
    cases v with
    | atom a =>
      change (if a.1 = ascii "true" then _ else _) = some req' at h
      by_cases htrue : a.1 = ascii "true"
      · rw [if_pos htrue] at h
        obtain rfl := Option.some.inj h
        exact ⟨fun w rest _ => ⟨w, hbool true a htrue w rest⟩, hle⟩
      · rw [if_neg htrue, Option.ite_none_right_eq_some] at h
        obtain ⟨hfalse, h⟩ := h
        obtain rfl := Option.some.inj h
        exact ⟨fun w rest _ => ⟨w, hbool false a hfalse w rest⟩, hle⟩
    | arr es => exact nomatch h
    | str s => exact nomatch h
    | obj ms => exact nomatch h
  rw [if_neg hstream] at h
  rw [if_neg fun hkey => hstream ((keyIs_decoded (by decide) name).1 hkey)]
  obtain rfl := Option.some.inj h
  exact ⟨fun w rest hrest => skipValue_field v req w hrest, hle⟩

/-- The parser reads every request object as `parsed` says, and stops at its closing brace. -/
theorem chatRequestParse_runs {ms : Members} {req req' : ChatRequest F}
    (hle : req.messages.length ≤ chatMaxMessages) (h : decodeRequest (parsed atof) ms req = some req') (w : Ws)
    (rest : List UInt8) :
    Runs (chatRequestParse atof req) (w.1 ++ (Value.obj ms).text ++ rest) req' (closeBrace :: rest) := by
  rw [Value.text]
  simp only [List.append_assoc, List.cons_append, List.nil_append]
  refine Runs.bind (skipWs_runs w (noWs_cons _ (by decide))) (Runs.bind (peek_runs openBrace _) ?_)
  rw [if_neg (not_not.2 rfl)]
  refine Runs.bind (next_runs ..) ?_
  exact members_runs (fun name v a a' hle hstep => requestField_runs hle hstep) ms hle h rest

end

end BitForge.Api
