/-
Which parts of a request the parser follows: of a request that it reads, every part that does not end
behind the backslash of an escape.
-/
import BitForge.Api.JsonTruncated

namespace BitForge.Api

open BitForge.Lib

theorem drop_of_cut {u r t : List UInt8} (hu : Balanced u) (ht : t <+: u ++ r) (hesc : ¬ EscapePending t) :
    t.drop u.length <+: r ∧ ¬ EscapePending (t.drop u.length) := by
  rcases prefix_append_cases ht with hcut | ⟨x, rfl, hx⟩
  · rw [List.drop_of_length_le (Nat.le_of_lt hcut.shorter)]
    exact ⟨List.nil_prefix, by decide⟩
  · rw [List.drop_left]
    exact ⟨hx, mt (hu.pending x).2 hesc⟩

theorem take_of_cut {v r t : List UInt8} (hv : Balanced v) (ht : t <+: v ++ r) (hesc : ¬ EscapePending t) :
    t.take v.length <+: v ∧ ¬ EscapePending (t.take v.length) := by
  rcases prefix_append_cases ht with hcut | ⟨x, rfl, -⟩
  · rw [List.take_of_length_le (Nat.le_of_lt hcut.shorter)]
    exact ⟨hcut.isPrefix, hesc⟩
  · rw [List.take_left]
    exact ⟨List.prefix_refl _, hv.not_pending⟩

/-- A part of an element and of those behind its comma. -/
theorem separated_of_cut {v : Value} {w : Ws} {es : Elements} {rest t : List UInt8}
    (ht : t <+: v.text ++ w.1 ++ comma :: es.text ++ rest) (hesc : ¬ EscapePending t) :
    (t.take v.text.length <+: v.text ∧ ¬ EscapePending (t.take v.text.length)) ∧
      t.drop (v.text.length + w.1.length + 1 + es.lead.1.length) <+: es.tight ++ rest ∧
      ¬ EscapePending (t.drop (v.text.length + w.1.length + 1 + es.lead.1.length)) := by
  rw [es.text_eq] at ht
  have hbalanced : Balanced (v.text ++ w.1 ++ [comma] ++ es.lead.1) :=
    (((balanced_rule.value v).append (balanced_rule.ws w)).append (balanced_rule.separator comma (by decide))).append
      (balanced_rule.ws es.lead)
  have hdrop := drop_of_cut (r := es.tight ++ rest) hbalanced
    (by simpa only [List.append_assoc, List.cons_append, List.nil_append] using ht) hesc
  simp only [List.length_append, List.length_singleton] at hdrop
  refine ⟨take_of_cut (r := w.1 ++ comma :: (es.lead.1 ++ es.tight) ++ rest) (balanced_rule.value v) ?_ hesc, hdrop⟩
  simpa only [List.append_assoc, List.cons_append] using ht

section

variable {α : Type}

theorem memberFollowed_of_whole {ok : Str → Value → α → List UInt8 → Prop} {k : Key} {v : Value} {a : α}
    (hok : ∀ t, t <+: v.text → ¬ EscapePending t → ok k.name v a t) {r t : List UInt8}
    (ht : t <+: k.text ++ (v.text ++ r)) (hesc : ¬ EscapePending t) : MemberFollowed ok k v a t := by
  obtain ⟨hdrop, hdrop'⟩ := drop_of_cut (balanced_rule.key k) ht hesc
  obtain ⟨htake, htake'⟩ := take_of_cut (balanced_rule.value v) hdrop hdrop'
  exact ⟨fun _ => hesc, hok _ htake htake'⟩

/-- A part of the members that ends in no escape is followed. -/
theorem Members.followed_of_whole {I : α → Prop} {step step' : Str → Value → α → Option α}
    {ok : Str → Value → α → List UInt8 → Prop} (hok : ∀ name v a a', I a → step' name v a = some a' →
      step name v a = some a' ∧ I a' ∧ ∀ t, t <+: v.text → ¬ EscapePending t → ok name v a t) (rest : List UInt8) :
    ∀ (ms : Members) {a a' : α}, I a → ms.fold step' a = some a' → ∀ t, t <+: ms.text ++ rest → ¬ EscapePending t →
      ms.Followed step ok a t
  | .empty _, _, _, _, _, _, _, _ => trivial
  | .last k v w, a, a', ha, h, t, ht, hesc => by
    rw [Members.fold] at h
    rw [Members.text, List.append_assoc, List.append_assoc] at ht
    exact memberFollowed_of_whole (hok _ _ _ _ ha h).2.2 ht hesc
  | .cons k v w ms, a, a', ha, h, t, ht, hesc => by
    rw [Members.fold] at h
    obtain ⟨b, hb, hms⟩ := Option.bind_eq_some_iff.1 h
    obtain ⟨hstep, hinv, hvalue⟩ := hok _ _ _ _ ha hb
    rw [Members.text] at ht
    refine ⟨memberFollowed_of_whole (r := w.1 ++ comma :: ms.text ++ rest) hvalue ?_ hesc, fun _ b' hb' => ?_⟩
    · simpa only [List.append_assoc, List.cons_append] using ht
    · obtain rfl : b = b' := Option.some.inj (hstep.symm.trans hb')
      have hbalanced : Balanced (k.text ++ v.text ++ w.1 ++ [comma]) :=
        (((balanced_rule.key k).append (balanced_rule.value v)).append (balanced_rule.ws w)).append
          (balanced_rule.separator comma (by decide))
      obtain ⟨hdrop, hdrop'⟩ := drop_of_cut (r := ms.text ++ rest) hbalanced
        (by simpa only [List.append_assoc, List.cons_append, List.nil_append] using ht) hesc
      simp only [List.length_append, List.length_singleton] at hdrop hdrop'
      exact followed_of_whole hok rest ms hinv hms _ hdrop hdrop'

/-- The same of the elements of an array. -/
theorem Elements.followed_of_whole {step : Value → α → Option α} {ok : Value → α → List UInt8 → Prop}
    (hok : ∀ v a a', step v a = some a' → ∀ t, t <+: v.text → ¬ EscapePending t → ok v a t) (rest : List UInt8) :
    ∀ (es : Elements) {a a' : α}, es.fold step a = some a' → ∀ t, t <+: es.tight ++ rest → ¬ EscapePending t →
      es.Followed step ok a t
  | .empty _, _, _, _, _, _, _ => trivial
  | .last w v w', a, a', h, t, ht, hesc => by
    rw [Elements.fold] at h
    rw [Elements.tight, List.append_assoc] at ht
    obtain ⟨htake, htake'⟩ := take_of_cut (balanced_rule.value v) ht hesc
    exact hok _ _ _ h _ htake htake'
  | .cons w v w' es, a, a', h, t, ht, hesc => by
    rw [Elements.fold] at h
    obtain ⟨b, hb, hes⟩ := Option.bind_eq_some_iff.1 h
    obtain ⟨⟨htake, htake'⟩, hdrop, hdrop'⟩ := separated_of_cut ht hesc
    refine ⟨hok _ _ _ hb _ htake htake', fun _ b' hb' => ?_⟩
    obtain rfl : b = b' := Option.some.inj (hb.symm.trans hb')
    exact followed_of_whole hok rest es hes _ hdrop hdrop'

end

section

variable {F : Type} {atof : Atof F}

/-- The inside of an object or an array. -/
theorem inner_of_cut {x y : UInt8} {inner t : List UInt8} (hxy : IsPair x y) (ht : t <+: x :: inner ++ [y])
    (hesc : ¬ EscapePending t) : t.drop 1 <+: inner ++ [y] ∧ ¬ EscapePending (t.drop 1) := by
  have hx : Balanced [x] := by rcases hxy with ⟨rfl, -⟩ | ⟨rfl, -⟩ <;> decide
  exact drop_of_cut hx ht hesc

theorem partFollowed_of_whole {name : Str} {v : Value} {msg msg' : ChatMessage}
    (h : partMember (parsed atof) name v msg = some msg') {t : List UInt8} (ht : t <+: v.text) (hesc : ¬ EscapePending t) :
    partFollowed (parsed atof) name v msg t := by
  simp only [partMember, parsed, Option.bind_eq_bind, Option.bind_some] at h
  unfold partFollowed
  by_cases htext : name.decoded = ascii "text"
  · rw [if_pos htext]
    trivial
  rw [if_neg htext] at h ⊢
  by_cases himage : name.decoded = ascii "image_url"
  · rw [if_pos himage] at h ⊢
    rintro ms rfl
    rw [Value.text] at ht
    obtain ⟨hdrop, hdrop'⟩ := inner_of_cut (.inl ⟨rfl, rfl⟩) ht hesc
    exact ms.followed_of_whole (I := fun _ => True) (fun _ _ _ _ _ hstep => ⟨hstep, trivial, fun _ _ hesc => .inr hesc⟩) _
      trivial h _ hdrop hdrop'
  · rw [if_neg himage]
    exact hesc

theorem contentPartFollowed_of_whole {v : Value} {msg msg' : ChatMessage} (h : contentPart (parsed atof) v msg = some msg')
    {t : List UInt8} (ht : t <+: v.text) (hesc : ¬ EscapePending t) : contentPartFollowed (parsed atof) v msg t := by
  rintro ms rfl
  rw [Value.text] at ht
  obtain ⟨hdrop, hdrop'⟩ := inner_of_cut (.inl ⟨rfl, rfl⟩) ht hesc
  exact ms.followed_of_whole (I := fun _ => True)
    (fun _ _ _ _ _ hstep => ⟨hstep, trivial, fun _ ht hesc => partFollowed_of_whole hstep ht hesc⟩) _ trivial h _ hdrop hdrop'

theorem elements_of_cut {es : Elements} {t : List UInt8} (ht : t <+: (Value.arr es).text) (hesc : ¬ EscapePending t) :
    t.drop (es.lead.1.length + 1) <+: es.tight ++ [closeBracket] ∧ ¬ EscapePending (t.drop (es.lead.1.length + 1)) := by
  rw [Value.text, es.text_eq] at ht
  have hbalanced : Balanced (openBracket :: es.lead.1) :=
    Balanced.append (u := [openBracket]) (by decide) (balanced_rule.ws es.lead)
  exact drop_of_cut hbalanced (by simpa only [List.append_assoc, List.cons_append] using ht) hesc

theorem messageFieldFollowed_of_whole {name : Str} {v : Value} {msg msg' : ChatMessage}
    (h : messageMember (parsed atof) name v msg = some msg') {t : List UInt8} (ht : t <+: v.text) (hesc : ¬ EscapePending t) :
    messageFieldFollowed (parsed atof) name v msg t := by
  simp only [messageMember, parsed, Option.bind_eq_bind, Option.bind_some] at h
  unfold messageFieldFollowed
  by_cases hcontent : name.decoded = ascii "content"
  · rw [if_pos hcontent]
    rintro es rfl
    rw [if_neg (by rw [hcontent]; decide), if_pos hcontent] at h
    obtain ⟨hdrop, hdrop'⟩ := elements_of_cut ht hesc
    exact es.followed_of_whole (fun _ _ _ hstep _ ht hesc => contentPartFollowed_of_whole hstep ht hesc) _ h _ hdrop hdrop'
  · rw [if_neg hcontent]
    exact hesc

theorem messageFollowed_of_whole {v : Value} {messages messages' : List ChatMessage}
    (h : message (parsed atof) v messages = some messages') {t : List UInt8} (ht : t <+: v.text) (hesc : ¬ EscapePending t) :
    messageFollowed (parsed atof) v t := by
  rintro ms rfl
  obtain ⟨msg, hfold, -⟩ := Option.bind_eq_some_iff.1 h
  rw [Value.text] at ht
  obtain ⟨hdrop, hdrop'⟩ := inner_of_cut (.inl ⟨rfl, rfl⟩) ht hesc
  exact ms.followed_of_whole (I := fun _ => True)
    (fun _ _ _ _ _ hstep => ⟨hstep, trivial, fun _ ht hesc => messageFieldFollowed_of_whole hstep ht hesc⟩) _ trivial hfold _
    hdrop hdrop'

theorem requestMember_typed {name : Str} {v : Value} {req req' : ChatRequest F}
    (h : requestMember (parsed atof) name v req = some req') : requestMember (typed atof) name v req = some req' := by
  change (if name.decoded = ascii "model" then _ else _) = some req' at h ⊢
  by_cases hmodel : name.decoded = ascii "model"
  · rwa [if_pos hmodel] at h ⊢
  rw [if_neg hmodel] at h ⊢
  by_cases hmessages : name.decoded = ascii "messages"
  · rw [if_pos hmessages] at h ⊢
    cases v with
    | arr es =>
      obtain ⟨all, hall, h⟩ := Option.bind_eq_some_iff.1 h
      rw [Option.ite_none_right_eq_some] at h
      refine Option.bind_eq_some_iff.2 ⟨all, es.fold_mono (fun _ _ _ => message_mono fun _ _ => id) hall, ?_⟩
      rw [if_pos (.inr (show (typed atof).surplus _ = true from rfl))]
      exact h.2
    | atom a => exact (Option.some_ne_none _ h.symm).elim
    | str s => exact (Option.some_ne_none _ h.symm).elim
    | obj ms => exact (Option.some_ne_none _ h.symm).elim
  · rwa [if_neg hmessages] at h ⊢

/-- Without room for a message the parser follows the whole array if no bracket stands in the messages. -/
theorem messagesFollowed_of_full {es : Elements} {messages all : List ChatMessage} (hfull : messages.length = chatMaxMessages)
    (h : es.fold (message (parsed atof)) messages = some all)
    (hskip : all.length ≤ chatMaxMessages ∨ closeBracket ∉ es.textFrom (chatMaxMessages - messages.length))
    {rest t : List UInt8} (ht : t <+: es.tight ++ rest) : messagesFollowed (parsed atof) es messages t := by
  have hbracket : closeBracket ∉ es.tight := by
    rw [hfull, Nat.sub_self] at hskip
    by_cases hnone : es.tight = []
    · rw [hnone]
      exact List.not_mem_nil
    · obtain ⟨l, hl⟩ := messages_brace h hnone
      rw [hl, List.mem_cons, not_or]
      exact ⟨by decide, fun hmem => (surplus_bytes hfull h hskip hl closeBracket hmem).2 rfl⟩
  refine (messagesFollowed_full hfull).2 fun hmem => hbracket (List.IsPrefix.subset ?_ hmem)
  have hpre := ht.take es.tight.length
  rwa [List.take_left] at hpre

/-- A part of an array of messages that the parser reads, and that ends in no escape, is followed. -/
theorem messagesFollowed_of_whole (rest : List UInt8) : ∀ (es : Elements) {messages all : List ChatMessage},
    messages.length ≤ chatMaxMessages → es.fold (message (parsed atof)) messages = some all →
    all.length ≤ chatMaxMessages ∨ closeBracket ∉ es.textFrom (chatMaxMessages - messages.length) →
    ∀ t, t <+: es.tight ++ rest → ¬ EscapePending t → messagesFollowed (parsed atof) es messages t
  | .empty _, _, _, _, _, _, _, _, _ => trivial
  | .last w v w', messages, all, hle, h, hskip, t, ht, hesc => by
    rcases hle.eq_or_lt with hfull | hroom
    · exact messagesFollowed_of_full hfull h hskip ht
    rw [Elements.fold] at h
    rw [Elements.tight, List.append_assoc] at ht
    obtain ⟨htake, htake'⟩ := take_of_cut (balanced_rule.value v) ht hesc
    rw [messagesFollowed, if_pos hroom]
    exact messageFollowed_of_whole h htake htake'
  | .cons w v w' es, messages, all, hle, h, hskip, t, ht, hesc => by
    rcases hle.eq_or_lt with hfull | hroom
    · exact messagesFollowed_of_full hfull h hskip ht
    rw [Elements.fold] at h
    obtain ⟨messages', hb, hes⟩ := Option.bind_eq_some_iff.1 h
    have hnext := message_length hb
    obtain ⟨⟨htake, htake'⟩, hdrop, hdrop'⟩ := separated_of_cut ht hesc
    rw [messagesFollowed, if_pos hroom]
    refine ⟨messageFollowed_of_whole hb htake htake', fun _ b hb' => ?_⟩
    obtain rfl : messages' = b := Option.some.inj (hb.symm.trans hb')
    rw [textFrom_cons w v w' es hroom, ← hnext] at hskip
    exact messagesFollowed_of_whole rest es (by omega) hes hskip _ hdrop hdrop'

/-- Of a request that the parser reads it follows every part that ends in no escape. -/
theorem requestFollowed_of_whole {ms : Members} {req : ChatRequest F}
    (hread : decodeRequest (parsed atof) ms (chatRequestInit atof) = some req) {w : Ws} {t : List UInt8}
    (ht : t <+: w.1 ++ openBrace :: ms.text) (hesc : ¬ EscapePending t) : RequestFollowed atof w ms t := by
  have hbalanced : Balanced (w.1 ++ [openBrace]) := (balanced_rule.ws w).append (by decide)
  obtain ⟨hdrop, hdrop'⟩ := drop_of_cut (r := ms.text ++ []) hbalanced
    (by simpa only [List.append_assoc, List.cons_append, List.nil_append, List.append_nil] using ht) hesc
  rw [List.length_append, List.length_singleton] at hdrop hdrop'
  refine ms.followed_of_whole (I := fun req : ChatRequest F => req.messages.length ≤ chatMaxMessages)
    (fun name v a a' hle hstep => ⟨requestMember_typed hstep, (requestField_runs hle hstep).2, fun t ht hesc => ?_⟩) []
    (Nat.zero_le _) hread _ hdrop hdrop'
  unfold requestFollowed
  by_cases hmessages : name.decoded = ascii "messages"
  · rw [if_pos hmessages]
    rintro es rfl
    change (if name.decoded = ascii "model" then _ else _) = some a' at hstep
    rw [if_neg (by rw [hmessages]; decide), if_pos hmessages] at hstep
    obtain ⟨all, hall, hstep⟩ := Option.bind_eq_some_iff.1 hstep
    rw [Option.ite_none_right_eq_some] at hstep
    obtain ⟨hdrop, hdrop'⟩ := elements_of_cut ht hesc
    refine messagesFollowed_of_whole [closeBracket] es hle hall (hstep.1.imp_right fun hsurplus hmem => ?_) _ hdrop hdrop'
    rw [parsed, Bool.not_eq_true', ← Bool.not_eq_true, List.contains_iff_mem] at hsurplus
    exact hsurplus hmem
  · rw [if_neg hmessages]
    exact hesc

end

end BitForge.Api
