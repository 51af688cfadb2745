/-
Truncated requests: at which places a request object can be cut off so that the parser notices.
-/
import BitForge.Api.JsonCut
import BitForge.Api.JsonReference

namespace BitForge.Api

open BitForge.Lib

/-! ## Loops -/

section

variable {α β : Type} {p : Prop} {s s' behind : List UInt8}

/-- The program fails if `p` holds, and stops at the NUL if not. -/
def CutsAt (p : Prop) (r : Parser α) (s behind : List UInt8) : Prop :=
  (p ∧ Fails r s) ∨ (¬ p ∧ ∃ a, Runs r s a (0 :: behind))

/-- The loop gets to an iteration that fails if `p` holds, and ends at the NUL if not. -/
def LoopCuts (p : Prop) (step : α → Parser (α ⊕ β)) (a : α) (s behind : List UInt8) : Prop :=
  ∃ b s', Reaches List.length step a s b s' ∧
    ((p ∧ Fails (step b) s') ∨ (¬ p ∧ ∃ c, Runs (step b) s' (.inr c) (0 :: behind)))

variable {step : α → Parser (α ⊕ β)} {a b : α}

theorem CutsAt.stops {r : Parser α} (h : CutsAt p r s behind) : Stops r s behind := h.imp And.right And.right

theorem LoopCuts.scan (h : LoopCuts p step a s behind) : CutsAt p (scan step a) s behind := by
  obtain ⟨b, s', hreach, ⟨hp, hfail⟩ | ⟨hp, c, hrun⟩⟩ := h
  · exact .inl ⟨hp, hreach.fails hfail⟩
  · exact .inr ⟨hp, c, hreach.runs hrun⟩

theorem LoopCuts.after (hreach : Reaches List.length step a s b s') (h : LoopCuts p step b s' behind) :
    LoopCuts p step a s behind := by
  obtain ⟨c, t, hreach', hend⟩ := h
  exact ⟨c, t, hreach.trans hreach', hend⟩

theorem LoopCuts.fails (hp : p) (h : Fails (step a) s) : LoopCuts p step a s behind := ⟨a, s, .refl .., .inl ⟨hp, h⟩⟩

theorem LoopCuts.ends {c : β} (hp : ¬ p) (h : Runs (step a) s (.inr c) (0 :: behind)) : LoopCuts p step a s behind :=
  ⟨a, s, .refl .., .inr ⟨hp, c, h⟩⟩

end

/-! ## Parts that the parser follows -/

/-- What there is of a member does not end behind a backslash in its name, and `ok` holds of what there is of its value. -/
def MemberFollowed {α : Type} (ok : Str → Value → α → List UInt8 → Prop) (k : Key) (v : Value) (a : α) (t : List UInt8) : Prop :=
  (t.length < k.text.length → ¬ EscapePending t) ∧ ok k.name v a ((t.drop k.text.length).take v.text.length)

/-- The same of each member that there is a part of, in the state after those before it. -/
def Members.Followed {α : Type} (step : Str → Value → α → Option α) (ok : Str → Value → α → List UInt8 → Prop) :
    Members → α → List UInt8 → Prop
  | .empty _, _, _ => True
  | .last k v _, a, t => MemberFollowed ok k v a t
  | .cons k v w ms, a, t => MemberFollowed ok k v a t ∧
      (k.text.length + v.text.length + w.1.length < t.length → ∀ b, step k.name v a = some b →
        ms.Followed step ok b (t.drop (k.text.length + v.text.length + w.1.length + 1)))

/-- The same of the elements of an array, without the white space in front of them. -/
def Elements.Followed {α : Type} (step : Value → α → Option α) (ok : Value → α → List UInt8 → Prop) :
    Elements → α → List UInt8 → Prop
  | .empty _, _, _ => True
  | .last _ v _, a, t => ok v a (t.take v.text.length)
  | .cons _ v w es, a, t => ok v a (t.take v.text.length) ∧
      (v.text.length + w.1.length < t.length → ∀ b, step v a = some b →
        es.Followed step ok b (t.drop (v.text.length + w.1.length + 1 + es.lead.1.length)))

section

variable {F : Type} (R : Reading F)

/-- `parse_string_heap` notices the end behind a backslash, `skip_value` does not. -/
def imageUrlFollowed (name : Str) (_ : Value) (_ : ChatMessage) (t : List UInt8) : Prop :=
  name.decoded = ascii "url" ∨ ¬ EscapePending t

def partFollowed (name : Str) (v : Value) (msg : ChatMessage) (t : List UInt8) : Prop :=
  if name.decoded = ascii "text" then True
  else if name.decoded = ascii "image_url" then
    ∀ ms, v = .obj ms → ms.Followed (imageUrlMember R) imageUrlFollowed msg (t.drop 1)
  else ¬ EscapePending t

def contentPartFollowed (v : Value) (msg : ChatMessage) (t : List UInt8) : Prop :=
  ∀ ms, v = .obj ms → ms.Followed (partMember R) (partFollowed R) msg (t.drop 1)

def messageFieldFollowed (name : Str) (v : Value) (msg : ChatMessage) (t : List UInt8) : Prop :=
  if name.decoded = ascii "content" then
    ∀ es, v = .arr es → es.Followed (contentPart R) (contentPartFollowed R) msg (t.drop (es.lead.1.length + 1))
  else ¬ EscapePending t

def messageFollowed (v : Value) (t : List UInt8) : Prop :=
  ∀ ms, v = .obj ms →
    ms.Followed (messageMember R) (messageFieldFollowed R) { role := [], content := none, imageDataUrl := none } (t.drop 1)

/-- Behind `CHAT_MAX_MESSAGES` messages the parser looks for the next bracket. -/
def messagesFollowed : Elements → List ChatMessage → List UInt8 → Prop
  | .empty _, _, _ => True
  | .last _ v w, messages, t =>
    if messages.length < chatMaxMessages then messageFollowed R v (t.take v.text.length)
    else closeBracket ∉ t.take (v.text.length + w.1.length)
  | .cons _ v w es, messages, t =>
    if messages.length < chatMaxMessages then messageFollowed R v (t.take v.text.length) ∧
      (v.text.length + w.1.length < t.length → ∀ b, message R v messages = some b →
        messagesFollowed es b (t.drop (v.text.length + w.1.length + 1 + es.lead.1.length)))
    else closeBracket ∉ t.take (v.text.length + w.1.length + 1 + es.text.length)

def requestFollowed (name : Str) (v : Value) (req : ChatRequest F) (t : List UInt8) : Prop :=
  if name.decoded = ascii "messages" then
    ∀ es, v = .arr es → messagesFollowed R es req.messages (t.drop (es.lead.1.length + 1))
  else ¬ EscapePending t

end

/-! ## The members of an object -/

/-- A member cut off behind `n` bytes is rejected in its name and before its colon, and in its value if the
field is strict. -/
def MemberRejects (strict : Str → Nat → Prop) (k : Key) (v : Value) (n : Nat) : Prop :=
  0 < n ∧ (n ≤ k.head.length ∨ (n < k.text.length + v.text.length ∧ strict k.name (n - k.text.length)))

/-- Whether the members are rejected if their text is cut off behind `n` bytes. -/
def Members.Rejects (strict : Str → Nat → Prop) : Members → Nat → Prop
  | .empty _, n => 0 < n
  | .last k v _, n => MemberRejects strict k v n
  | .cons k v w ms, n => MemberRejects strict k v n ∨
      (k.text.length + v.text.length + w.1.length < n ∧
        ms.Rejects strict (n - (k.text.length + v.text.length + w.1.length + 1)))

section

variable {α : Type} {cap : Nat} {field : List UInt8 → α → Parser α} {strict : Str → Nat → Prop}
  {ok : Str → Value → α → List UInt8 → Prop} {behind : List UInt8}

/-- The field function on a value that ends too early. -/
def FieldCuts (cap : Nat) (field : List UInt8 → α → Parser α) (strict : Str → Nat → Prop)
    (ok : Str → Value → α → List UInt8 → Prop) (name : Str) (v : Value) (a : α) : Prop :=
  ∀ t behind, Cut t v.text → ok name v a t → CutsAt (strict name t.length) (field (name.decoded.take (cap - 1)) a) (t ++ 0 :: behind) behind

theorem fieldStep_nul (a : α) : Runs (fieldStep cap field a) (0 :: behind) (.inr a) (0 :: behind) := by
  refine Runs.bind peek_nul ?_
  rw [if_neg fun h => h.1 rfl]
  exact Runs.ret

theorem Key.text_eq (k : Key) : k.text = k.head ++ ([colon] ++ k.after.1) := rfl

theorem Key.length_text (k : Key) : k.text.length = k.head.length + 1 + k.after.1.length := by
  rw [k.text_eq]
  simp only [List.length_append, List.length_singleton]
  omega

/-- A part of a key starts with the first byte of it. -/
theorem Key.prefix_cons (k : Key) {t : List UInt8} (hpre : t <+: k.text) (hne : t ≠ []) (rest : List UInt8) :
    (t ++ rest).headD 0 ≠ 0 ∧ (t ++ rest).headD 0 ≠ closeBrace := by
  obtain ⟨u, hu⟩ := hpre
  have hhead := k.head_cons []
  rw [← hu] at hhead
  cases t with
  | nil => exact absurd rfl hne
  | cons b t => exact hhead

/-- A member that ends before its colon. -/
theorem key_cut (k : Key) {t : List UInt8} (hpre : t <+: k.head) (hne : t ≠ []) (hesc : ¬ EscapePending t)
    (a : α) : Fails (fieldStep cap field a) (t ++ 0 :: behind) := by
  have hname : ∀ (w : Ws) (u : List UInt8), Cut u k.name.text → t = w.1 ++ u →
      Fails (fieldStep cap field a) (t ++ 0 :: behind) := by
    rintro w u hcut rfl
    rw [(balanced_rule.ws w).pending] at hesc
    have hnows : NoWs (u ++ 0 :: behind) ∧ (u ++ 0 :: behind).headD 0 ≠ closeBrace := by
      rcases Cut.cons_cases hcut with rfl | ⟨u', rfl, -⟩
      · exact ⟨noWs_nul behind, by change (0 : UInt8) ≠ _; decide⟩
      · exact ⟨noWs_cons _ (by decide), by change quote ≠ _; decide⟩
    refine Runs.bind_fails (peek_headD _) ?_
    rw [if_pos (k.prefix_cons (hpre.trans ⟨_, k.text_eq.symm⟩) hne _), List.append_assoc]
    refine Runs.bind_fails (skipWs_runs w hnows.1) (Runs.bind_fails (peek_headD _) ?_)
    rw [if_neg hnows.2]
    exact (orFail_none (parseString_cut cap ⟨[], List.forall_mem_nil _⟩ hcut hesc behind)).bind
  rcases prefix_append_cases (t := t) (u := k.before.1) (v := k.name.text ++ k.between.1)
    (by rwa [← List.append_assoc]) with hcut | ⟨u, rfl, hpre'⟩
  · obtain ⟨w, hw⟩ := ws_of_prefix hcut.isPrefix
    exact hname w [] (.nil (Nat.succ_pos _)) (by rw [hw, List.append_nil])
  rcases prefix_append_cases hpre' with hcut | ⟨u', rfl, hbetween⟩
  · exact hname k.before u hcut rfl
  · obtain ⟨w, rfl⟩ := ws_of_prefix hbetween
    refine Runs.bind_fails (peek_headD _) ?_
    rw [if_pos (k.prefix_cons (hpre.trans ⟨_, k.text_eq.symm⟩) hne _)]
    simp only [List.append_assoc]
    refine Runs.bind_fails (skipWs_runs k.before ?_) (Runs.bind_fails (peek_headD _) ?_)
    · rw [Str.text_append]
      exact noWs_cons _ (by decide)
    · have hkey := parseString_runs cap ⟨[], List.forall_mem_nil _⟩ k.name (w.1 ++ 0 :: behind)
      rw [List.nil_append] at hkey
      rw [if_neg (by rw [Str.text_append]; change ¬ quote = closeBrace; decide)]
      exact Runs.bind_fails (orFail_runs hkey) (expectChar_nul (by decide) w).bind

/-- A member whose value ends too early. -/
theorem value_cut {k : Key} {v : Value} {a : α} (hfield : FieldCuts cap field strict ok k.name v a) (w : Ws)
    {u : List UInt8} (hcut : Cut u v.text) (hok : ok k.name v a u) :
    (strict k.name u.length ∧ Fails (fieldStep cap field a) (k.head ++ colon :: (w.1 ++ (u ++ 0 :: behind)))) ∨
      (¬ strict k.name u.length ∧
        ∃ b, Runs (fieldStep cap field a) (k.head ++ colon :: (w.1 ++ (u ++ 0 :: behind))) (.inl b) (0 :: behind)) := by
  have hnows : NoWs (u ++ 0 :: behind) := by
    obtain ⟨b, l, heq, hb, -⟩ := v.text_cons
    rw [heq] at hcut
    rcases hcut.cons_cases with rfl | ⟨u', rfl, -⟩
    · exact noWs_nul behind
    · exact noWs_cons _ hb
  have hstart := @fieldStep_continues _ cap field k a w _ hnows
  rcases hfield u behind hcut hok with ⟨hp, hfail⟩ | ⟨hp, b, hrun⟩
  · exact .inl ⟨hp, hstart.fails hfail.bind⟩
  · refine .inr ⟨hp, b, hstart.runs (Runs.bind hrun (Runs.bind (a := ()) ?_ Runs.ret))⟩
    exact skipComma_runs ⟨[], List.forall_mem_nil _⟩ (noWs_nul behind)

theorem memberRejects_value {k : Key} {v : Value} {n : Nat} (hn : n < v.text.length) :
    MemberRejects strict k v (k.text.length + n) ↔ strict k.name n := by
  have hlen := k.length_text
  constructor
  · rintro ⟨-, hle | ⟨-, h⟩⟩
    · omega
    · rwa [Nat.add_sub_cancel_left] at h
  · intro h
    refine ⟨by omega, .inr ⟨by omega, ?_⟩⟩
    rwa [Nat.add_sub_cancel_left]

theorem not_memberRejects {k : Key} {v : Value} {n : Nat} (hn : k.text.length + v.text.length ≤ n) :
    ¬ MemberRejects strict k v n := by
  have hlen := k.length_text
  rintro ⟨-, hle | ⟨hlt, -⟩⟩
  · omega
  · omega

/-- One member that ends too early. -/
theorem member_cut {k : Key} {v : Value} {w : Ws} {a a' : α} (hrun : ok k.name v a v.text → FieldRuns cap field k.name v a a')
    (hcut : FieldCuts cap field strict ok k.name v a) {t : List UInt8} (hpre : t <+: k.text ++ v.text ++ w.1)
    (hok : MemberFollowed ok k v a t) :
    LoopCuts (MemberRejects strict k v t.length) (fieldStep cap field) a (t ++ 0 :: behind) behind := by
  have hlen := k.length_text
  by_cases hne : t = []
  · subst hne
    exact .ends (fun h => Nat.lt_irrefl 0 h.1) (fieldStep_nul a)
  have hpos := List.length_pos_of_ne_nil hne
  by_cases hhead : t.length ≤ k.head.length
  · refine .fails ⟨hpos, .inl hhead⟩ (key_cut k ?_ hne (hok.1 (by omega)) a)
    refine List.prefix_of_prefix_length_le hpre ?_ hhead
    rw [k.text_eq, List.append_assoc, List.append_assoc]
    exact List.prefix_append _ _
  -- the colon is there: the white space behind it, and a part of the value
  have hvalue : ∀ (w : Ws) (u : List UInt8), t = k.head ++ colon :: (w.1 ++ u) → Cut u v.text → ok k.name v a u →
      (strict k.name u.length ↔ MemberRejects strict k v t.length) →
      LoopCuts (MemberRejects strict k v t.length) (fieldStep cap field) a (t ++ 0 :: behind) behind := by
    rintro w u rfl hu hu' hiff
    have hval := @value_cut _ cap field strict ok behind k v a hcut w u hu hu'
    rw [hiff] at hval
    simp only [List.append_assoc, List.cons_append] at hval ⊢
    rcases hval with ⟨hp, hfail⟩ | ⟨hp, b, hstep⟩
    · exact .fails hp hfail
    · refine .after (.one hstep ?_) (.ends hp (fieldStep_nul b))
      simp only [List.length_append, List.length_cons]
      omega
  rw [List.append_assoc] at hpre
  have hpart := hok.2
  rcases prefix_append_cases hpre with hkey | ⟨u, rfl, hpre'⟩
  · rw [List.drop_of_length_le (Nat.le_of_lt hkey.shorter), List.take_nil] at hpart
    rw [k.text_eq] at hkey
    rcases prefix_append_cases hkey.isPrefix with hcut' | ⟨u, rfl, hu⟩
    · exact absurd (Nat.le_of_lt hcut'.shorter) hhead
    · cases u with
      | nil =>
        rw [List.append_nil] at hhead
        exact absurd (Nat.le_refl _) hhead
      | cons b u =>
        obtain ⟨rfl, hafter⟩ := List.cons_prefix_cons.1 hu
        obtain ⟨w', rfl⟩ := ws_of_prefix hafter
        obtain ⟨c, l, hv, -⟩ := v.text_cons
        refine hvalue w' [] (by rw [List.append_nil]) (.nil (by rw [hv]; exact Nat.succ_pos _)) hpart ?_
        have hle : w'.1.length ≤ k.after.1.length := hafter.length_le
        unfold MemberRejects
        rw [List.length_append, List.length_cons]
        have hsub : k.head.length + (w'.1.length + 1) - k.text.length = 0 := by omega
        rw [hsub, List.length_nil]
        constructor
        · intro h
          exact ⟨by omega, .inr ⟨by rw [hv, List.length_cons]; omega, h⟩⟩
        · rintro ⟨-, hle' | ⟨-, h⟩⟩
          · omega
          · exact h
  rw [List.drop_left] at hpart
  rcases prefix_append_cases hpre' with hu | ⟨x, rfl, hx⟩
  · rw [List.take_of_length_le (Nat.le_of_lt hu.shorter)] at hpart
    refine hvalue k.after u (by rw [k.text_eq]; simp) hu hpart ?_
    rw [List.length_append]
    exact (memberRejects_value hu.shorter).symm
  · rw [List.take_left] at hpart
    obtain ⟨w', rfl⟩ := ws_of_prefix hx
    have hreach := member_reaches (hrun hpart) w' (show EndsValue (0 :: behind) from List.mem_cons_self)
    rw [← List.append_assoc]
    refine .after hreach (.ends (not_memberRejects ?_) (fieldStep_nul a'))
    simp only [List.length_append]
    omega

/-- The members of an object that end too early. -/
theorem members_cut {I : α → Prop} {step : Str → Value → α → Option α}
    (hfield : ∀ name v a a', I a → step name v a = some a' →
      (ok name v a v.text → FieldRuns cap field name v a a' ∧ I a') ∧ FieldCuts cap field strict ok name v a) :
    ∀ (ms : Members) {a a' : α}, I a → ms.fold step a = some a' → ∀ t, t <+: ms.text → ms.Followed step ok a t →
      LoopCuts (ms.Rejects strict t.length) (fieldStep cap field) a (t ++ 0 :: behind) behind
  | .empty w, a, a', _, _, t, hpre, _ => by
    rw [Members.text] at hpre
    obtain ⟨w', rfl⟩ := ws_of_prefix hpre
    rw [Members.Rejects]
    obtain ⟨_ | ⟨c, l⟩, hw⟩ := w'
    · exact .ends (Nat.lt_irrefl 0) (fieldStep_nul a)
    · have hc := hw c List.mem_cons_self
      refine .fails (Nat.succ_pos _) (Runs.bind_fails (peek_runs c _) ?_)
      rw [if_pos ⟨hc.1, by rintro rfl; exact absurd hc.2 (by decide)⟩]
      refine Runs.bind_fails (skipWs_runs ⟨c :: l, hw⟩ (noWs_nul behind)) (Runs.bind_fails peek_nul ?_)
      rw [if_neg (by decide)]
      exact (orFail_none (parseString_nul cap ⟨[], List.forall_mem_nil _⟩)).bind
  | .last k v w, a, a', ha, h, t, hpre, hok => by
    rw [Members.fold] at h
    rw [Members.text] at hpre
    rw [Members.Followed] at hok
    obtain ⟨hrun, hcut⟩ := hfield _ _ _ _ ha h
    exact member_cut (fun hv => (hrun hv).1) hcut hpre hok
  | .cons k v w ms, a, a', ha, h, t, hpre, hok => by
    rw [Members.fold] at h
    obtain ⟨b, hb, hms⟩ := Option.bind_eq_some_iff.1 h
    obtain ⟨hrun, hcut⟩ := hfield _ _ _ _ ha hb
    rw [Members.text] at hpre
    rw [Members.Followed] at hok
    have hone : t <+: k.text ++ v.text ++ w.1 →
        LoopCuts ((Members.cons k v w ms).Rejects strict t.length) (fieldStep cap field) a (t ++ 0 :: behind) behind := by
      intro hpre
      have hle := hpre.length_le
      simp only [List.length_append] at hle
      have hiff : (Members.cons k v w ms).Rejects strict t.length ↔ MemberRejects strict k v t.length :=
        or_iff_left fun h => absurd h.1 (Nat.not_lt.2 hle)
      rw [hiff]
      exact member_cut (fun hv => (hrun hv).1) hcut hpre hok.1
    rcases prefix_append_cases hpre with hin | ⟨u, rfl, hu⟩
    · exact hone hin.isPrefix
    · cases u with
      | nil =>
        rw [List.append_nil] at hok hone ⊢
        exact hone (List.prefix_refl _)
      | cons c u =>
        obtain ⟨rfl, hms'⟩ := List.cons_prefix_cons.1 hu
        have hlen : (k.text ++ v.text ++ w.1 ++ comma :: u).length =
            k.text.length + v.text.length + w.1.length + 1 + u.length := by
          simp only [List.length_append, List.length_cons]
          omega
        have hdrop : (k.text ++ v.text ++ w.1 ++ comma :: u).drop (k.text.length + v.text.length + w.1.length + 1) = u := by
          rw [List.append_cons]
          exact List.drop_left' (by simp only [List.length_append, List.length_singleton])
        have hvalue : ok k.name v a v.text := by
          have hpart := hok.1.2
          rwa [List.append_assoc, List.append_assoc, List.drop_left, List.take_left] at hpart
        obtain ⟨hfieldRuns, hinv⟩ := hrun hvalue
        have hrest := hok.2 (by omega) b hb
        rw [hdrop] at hrest
        have htail := members_cut hfield ms hinv hms u hms' hrest
        have hreach := member_reaches hfieldRuns w (endsValue_cons (c := comma) (by decide) (u ++ 0 :: behind))
        have hiff : (Members.cons k v w ms).Rejects strict (k.text ++ v.text ++ w.1 ++ comma :: u).length ↔
            ms.Rejects strict u.length := by
          rw [hlen, Members.Rejects, or_iff_right (not_memberRejects (by omega)), Nat.add_sub_cancel_left,
            and_iff_right (by omega)]
        rw [hiff, List.append_assoc, List.cons_append]
        exact .after hreach htail

end

/-! ## Messages -/

section

variable {F : Type} {atof : Atof F} {behind : List UInt8}

theorem expectChar_closes {c : UInt8} (hc : c ≠ 0) : Fails (expectChar c) (0 :: behind) :=
  expectChar_nul hc ⟨[], List.forall_mem_nil _⟩

/-- The loop over an object that ends too early stops. -/
theorem members_stop {α : Type} {cap : Nat} {field : List UInt8 → α → Parser α} {step : Str → Value → α → Option α}
    {strict : Str → Nat → Prop} {ok : Str → Value → α → List UInt8 → Prop}
    (hfield : ∀ name v a a', step name v a = some a' →
      FieldRuns cap field name v a a' ∧ FieldCuts cap field strict ok name v a)
    {ms : Members} {a a' : α} (h : ms.fold step a = some a') {t : List UInt8} (hcut : Cut t (ms.text ++ [closeBrace]))
    (hok : ms.Followed step ok a t) : Stops (scan (fieldStep cap field) a) (t ++ 0 :: behind) behind := by
  have hfield' : ∀ name v a a', True → step name v a = some a' →
      (ok name v a v.text → FieldRuns cap field name v a a' ∧ True) ∧ FieldCuts cap field strict ok name v a := by
    intro name v a a' _ hstep
    obtain ⟨hrun, hc⟩ := hfield name v a a' hstep
    exact ⟨fun _ => ⟨hrun, trivial⟩, hc⟩
  exact (members_cut (I := fun _ => True) hfield' ms trivial h t hcut.concat hok).scan.stops

theorem skipValue_stops {α : Type} {v : Value} {t : List UInt8} (hcut : Cut t v.text) (hesc : ¬ EscapePending t) (a : α) :
    ∃ b, Runs (do
      skipValue
      pure a) (t ++ 0 :: behind) b (0 :: behind) := ⟨a, Runs.bind (skipValue_cut hcut hesc) Runs.ret⟩

theorem imageUrlField_cuts {name : Str} {v : Value} {msg msg' : ChatMessage}
    (h : imageUrlMember (parsed atof) name v msg = some msg') :
    FieldCuts 32 imageUrlField (fun name _ => name.decoded = ascii "url") imageUrlFollowed name v msg := by
  intro t behind hcut hok
  simp only [imageUrlMember, parsed, Option.bind_eq_bind, Option.bind_some] at h
  unfold imageUrlField
  by_cases hurl : name.decoded = ascii "url"
  · rw [if_pos hurl] at h
    rw [if_pos ((keyIs_decoded (by decide) name).2 hurl)]
    cases v with
    | str s =>
      rw [Value.text] at hcut
      exact .inl ⟨hurl, (parseStringHeap_cut hcut).bind⟩
    | atom a => exact (Option.some_ne_none _ h.symm).elim
    | arr es => exact (Option.some_ne_none _ h.symm).elim
    | obj ms => exact (Option.some_ne_none _ h.symm).elim
  · rw [if_neg fun hkey => hurl ((keyIs_decoded (by decide) name).1 hkey)]
    exact .inr ⟨hurl, skipValue_stops hcut (hok.resolve_left hurl) msg⟩

/-- Where a field of a content part is strict. -/
def PartStrict (name : Str) (n : Nat) : Prop :=
  name.decoded = ascii "text" ∨ (name.decoded = ascii "image_url" ∧ n ≠ 0)

theorem partField_cuts {name : Str} {v : Value} {msg msg' : ChatMessage}
    (h : partMember (parsed atof) name v msg = some msg') :
    FieldCuts 64 partField PartStrict (partFollowed (parsed atof)) name v msg := by
  intro t behind hcut hok
  unfold partFollowed at hok
  simp only [partMember, parsed, Option.bind_eq_bind, Option.bind_some] at h
  unfold partField
  by_cases htext : name.decoded = ascii "text"
  · rw [if_pos htext] at h
    rw [if_pos ((keyIs_decoded (by decide) name).2 htext)]
    cases v with
    | str s =>
      rw [Value.text] at hcut
      exact .inl ⟨.inl htext, (parseStringHeap_cut hcut).bind⟩
    | atom a => exact (Option.some_ne_none _ h.symm).elim
    | arr es => exact (Option.some_ne_none _ h.symm).elim
    | obj ms => exact (Option.some_ne_none _ h.symm).elim
  rw [if_neg htext] at h hok
  rw [if_neg fun hkey => htext ((keyIs_decoded (by decide) name).1 hkey)]
  unfold atImageObject
  by_cases himage : name.decoded = ascii "image_url"
  · rw [if_pos himage] at h hok
    rw [if_pos ((keyIs_decoded (by decide) name).2 himage)]
    cases v with
    | obj ms =>
      rw [Value.text] at hcut
      rcases Cut.cons_cases hcut with rfl | ⟨t, rfl, hms⟩
      · refine .inr ⟨fun hp => hp.elim htext fun hp => hp.2 rfl, msg, Runs.bind (Runs.bind peek_nul Runs.ret) ?_⟩
        rw [if_neg (by decide)]
        exact Runs.bind skipValue_nul Runs.ret
      · refine .inl ⟨.inr ⟨himage, Nat.succ_ne_zero _⟩, Runs.bind_fails (Runs.bind (peek_runs openBrace _) Runs.ret) ?_⟩
        rw [if_pos (by decide)]
        refine Runs.bind_fails (next_runs openBrace _) (Stops.bind_fails (members_stop (fun _ _ _ _ hstep =>
          ⟨imageUrlField_runs hstep, imageUrlField_cuts hstep⟩) h hms (hok ms rfl)) fun a => ?_)
        exact (expectChar_closes (by decide)).bind
    | str s => exact (Option.some_ne_none _ h.symm).elim
    | atom a => exact (Option.some_ne_none _ h.symm).elim
    | arr es => exact (Option.some_ne_none _ h.symm).elim
  · rw [if_neg himage] at hok
    rw [if_neg fun hkey => himage ((keyIs_decoded (by decide) name).1 hkey)]
    refine .inr ⟨fun hp => hp.elim htext fun hp => himage hp.1, ?_⟩
    obtain ⟨b, hrun⟩ := @skipValue_stops behind _ v t hcut hok msg
    refine ⟨b, Runs.bind Runs.ret ?_⟩
    rw [if_neg Bool.false_ne_true]
    exact hrun

/-! ## Arrays -/

section

variable {α β : Type} {step : α → Parser (α ⊕ β)} {a a' : α}

/-- Elements that end too early, behind their leading white space. -/
theorem Elements.cut_tight {es : Elements} {u : List UInt8} (hu : u <+: es.text) (behind : List UInt8) :
    ∃ w : Ws, u = w.1 ++ u.drop es.lead.1.length ∧ u.drop es.lead.1.length <+: es.tight ∧
      NoWs (u.drop es.lead.1.length ++ 0 :: behind) := by
  rw [es.text_eq] at hu
  rcases prefix_append_cases hu with hcut | ⟨t, rfl, ht⟩
  · obtain ⟨w, rfl⟩ := ws_of_prefix hcut.isPrefix
    rw [List.drop_of_length_le (Nat.le_of_lt hcut.shorter)]
    exact ⟨w, (List.append_nil _).symm, List.nil_prefix, noWs_nul behind⟩
  · rw [List.drop_left]
    refine ⟨es.lead, rfl, ht, ?_⟩
    have hnows := es.noWs_tight []
    obtain ⟨x, hx⟩ := ht
    rw [← hx] at hnows
    cases t with
    | nil => exact noWs_nul behind
    | cons b t => exact hnows

/-- The separator in front of the elements that end too early. -/
theorem skipCommaWs_cut (w : Ws) {es : Elements} {u : List UInt8} (hu : u <+: es.text) :
    u.drop es.lead.1.length <+: es.tight ∧
      Runs skipCommaWs (w.1 ++ comma :: (u ++ 0 :: behind)) () (u.drop es.lead.1.length ++ 0 :: behind) := by
  obtain ⟨w', heq, ht, hnows⟩ := Elements.cut_tight hu behind
  refine ⟨ht, Runs.bind (skipWs_runs w (noWs_cons _ (by decide))) (Runs.bind (peek_runs comma _) ?_)⟩
  rw [if_pos rfl]
  have hskip := skipWs_runs w' hnows
  rw [← List.append_assoc, ← heq] at hskip
  exact Runs.bind (next_runs comma _) hskip

/-- One element that ends too early. -/
theorem element_cut {step : α → Parser (α ⊕ α)} {v : Value} {ok : List UInt8 → Prop} (hrun : ElementRuns step v a a')
    (hcut : ∀ t, Cut t v.text → t ≠ [] → ok t → Fails (step a) (t ++ 0 :: behind))
    (hnul : ∀ a, Runs (step a) (0 :: behind) (.inr a) (0 :: behind)) (w : Ws) {t : List UInt8} (ht : t <+: v.text ++ w.1)
    (hok : ok (t.take v.text.length)) : ∃ p, LoopCuts p step a (t ++ 0 :: behind) behind := by
  rcases prefix_append_cases ht with hv | ⟨u, rfl, hu⟩
  · rw [List.take_of_length_le (Nat.le_of_lt hv.shorter)] at hok
    by_cases hne : t = []
    · subst hne
      exact ⟨False, .ends id (hnul a)⟩
    · exact ⟨True, .fails trivial (hcut t hv hne hok)⟩
  · obtain ⟨w', rfl⟩ := ws_of_prefix hu
    have hsep : Runs skipCommaWs (w'.1 ++ 0 :: behind) () (0 :: behind) := by
      refine Runs.bind (skipWs_runs w' (noWs_nul behind)) (Runs.bind peek_nul ?_)
      rw [if_neg (by decide)]
      exact Runs.ret
    exact ⟨False, .after (.one (hrun w' _ _ hsep) (length_append_lt (Nat.le_refl _))) (.ends id (hnul a'))⟩

/-- An element and those behind its comma, cut off before or behind the comma. -/
theorem separated_cut {step : α → Parser (α ⊕ α)} {v : Value} {ok rest : List UInt8 → Prop} (hrun : ElementRuns step v a a')
    (hcut : ∀ t, Cut t v.text → t ≠ [] → ok t → Fails (step a) (t ++ 0 :: behind))
    (hnul : ∀ a, Runs (step a) (0 :: behind) (.inr a) (0 :: behind)) (w : Ws) {es : Elements}
    (hrest : ∀ t, t <+: es.tight → rest t → ∃ p, LoopCuts p step a' (t ++ 0 :: behind) behind)
    {t : List UInt8} (ht : t <+: v.text ++ w.1 ++ comma :: es.text) (hok : ok (t.take v.text.length))
    (hokRest : v.text.length + w.1.length < t.length → rest (t.drop (v.text.length + w.1.length + 1 + es.lead.1.length))) :
    ∃ p, LoopCuts p step a (t ++ 0 :: behind) behind := by
  have hone : t <+: v.text ++ w.1 → ∃ p, LoopCuts p step a (t ++ 0 :: behind) behind := fun ht =>
    element_cut hrun hcut hnul w ht hok
  rcases prefix_append_cases ht with hin | ⟨u, rfl, hu⟩
  · exact hone hin.isPrefix
  · cases u with
    | nil => exact hone (by rw [List.append_nil])
    | cons c u =>
      obtain ⟨rfl, hu'⟩ := List.cons_prefix_cons.1 hu
      have hdrop : (v.text ++ w.1 ++ comma :: u).drop (v.text.length + w.1.length + 1) = u := by
        rw [List.append_cons]
        exact List.drop_left' (by simp only [List.length_append, List.length_singleton])
      have hafter := hokRest (by
        simp only [List.length_append, List.length_cons]
        omega)
      rw [← List.drop_drop, hdrop] at hafter
      obtain ⟨ht, hsep⟩ := @skipCommaWs_cut behind w es u hu'
      obtain ⟨p, hloop⟩ := hrest _ ht hafter
      refine ⟨p, ?_⟩
      rw [List.append_assoc, List.cons_append]
      refine .after (.one (hrun w _ _ hsep) (length_append_lt ?_)) hloop
      simp only [List.length_append, List.length_cons, List.length_drop]
      omega

end

theorem partsStep_nul (msg : ChatMessage) : Runs (partsStep msg) (0 :: behind) (.inr msg) (0 :: behind) := by
  refine Runs.bind peek_nul ?_
  rw [if_neg fun h => h.1 rfl]
  exact Runs.ret

theorem contentPart_cut {v : Value} {msg msg' : ChatMessage} (h : contentPart (parsed atof) v msg = some msg')
    {t : List UInt8} (hcut : Cut t v.text) (hne : t ≠ []) (hok : contentPartFollowed (parsed atof) v msg t) :
    Fails (partsStep msg) (t ++ 0 :: behind) := by
  cases v with
  | obj ms =>
    rw [Value.text] at hcut
    rcases Cut.cons_cases hcut with rfl | ⟨t, rfl, hms⟩
    · exact absurd rfl hne
    · refine Runs.bind_fails (peek_runs openBrace _) ?_
      rw [if_pos (by decide)]
      refine Runs.bind_fails (expectChar_runs (by decide) ⟨[], List.forall_mem_nil _⟩ _) ?_
      refine Stops.bind_fails (members_stop (fun _ _ _ _ hstep => ⟨partField_runs hstep, partField_cuts hstep⟩) h hms
        (hok ms rfl)) ?_
      exact fun a => (expectChar_closes (by decide)).bind
  | str s => exact (Option.some_ne_none _ h.symm).elim
  | atom a => exact (Option.some_ne_none _ h.symm).elim
  | arr es => exact (Option.some_ne_none _ h.symm).elim

theorem parts_cut : ∀ (es : Elements) {msg msg' : ChatMessage}, es.fold (contentPart (parsed atof)) msg = some msg' →
    ∀ t, t <+: es.tight → es.Followed (contentPart (parsed atof)) (contentPartFollowed (parsed atof)) msg t →
      ∃ p, LoopCuts p partsStep msg (t ++ 0 :: behind) behind
  | .empty w, msg, msg', _, t, ht, _ => by
    obtain rfl : t = [] := List.prefix_nil.1 ht
    exact ⟨False, .ends id (partsStep_nul msg)⟩
  | .last w v w', msg, msg', h, t, ht, hok => by
    rw [Elements.fold] at h
    exact element_cut (contentPart_runs h) (fun t hcut hne hok => contentPart_cut h hcut hne hok) partsStep_nul w' ht hok
  | .cons w v w' es, msg, msg', h, t, ht, hok => by
    rw [Elements.fold] at h
    obtain ⟨b, hb, hes⟩ := Option.bind_eq_some_iff.1 h
    rw [Elements.tight] at ht
    rw [Elements.Followed] at hok
    exact separated_cut (contentPart_runs hb) (fun t hcut hne hok => contentPart_cut hb hcut hne hok) partsStep_nul w'
      (parts_cut es hes) ht hok.1 fun hlt => hok.2 hlt b hb

/-- The array of content parts that ends too early. -/
theorem parseContentParts_cut {es : Elements} {msg msg' : ChatMessage}
    (h : es.fold (contentPart (parsed atof)) msg = some msg') {t : List UInt8} (hcut : Cut t (es.text ++ [closeBracket]))
    (hok : es.Followed (contentPart (parsed atof)) (contentPartFollowed (parsed atof)) msg (t.drop es.lead.1.length)) :
    Fails (parseContentParts msg) (openBracket :: (t ++ 0 :: behind)) := by
  refine Runs.bind_fails (expectChar_runs (by decide) ⟨[], List.forall_mem_nil _⟩ _) ?_
  obtain ⟨w, heq, hu, hnows⟩ := Elements.cut_tight hcut.concat behind
  have hskip := skipWs_runs w hnows
  rw [← List.append_assoc, ← heq] at hskip
  refine Runs.bind_fails hskip ?_
  obtain ⟨p, hloop⟩ := @parts_cut _ atof behind es msg msg' h _ hu hok
  exact hloop.scan.stops.bind_fails fun a => (expectChar_closes (by decide)).bind

theorem messageField_cuts {name : Str} {v : Value} {msg msg' : ChatMessage}
    (h : messageMember (parsed atof) name v msg = some msg') :
    FieldCuts 64 messageField (fun name _ => name.decoded = ascii "role" ∨ name.decoded = ascii "content")
      (messageFieldFollowed (parsed atof)) name v msg := by
  intro t behind hcut hok
  unfold messageFieldFollowed at hok
  simp only [messageMember, parsed, Option.bind_eq_bind, Option.bind_some] at h
  unfold messageField
  by_cases hrole : name.decoded = ascii "role"
  · rw [if_pos hrole] at h
    rw [if_neg (by rw [hrole]; decide)] at hok
    rw [if_pos ((keyIs_decoded (by decide) name).2 hrole)]
    cases v with
    | str s =>
      rw [Value.text] at hcut
      exact .inl ⟨.inl hrole, (orFail_none (parseString_cut 32 ⟨[], List.forall_mem_nil _⟩ hcut hok behind)).bind⟩
    | atom a => exact (Option.some_ne_none _ h.symm).elim
    | arr es => exact (Option.some_ne_none _ h.symm).elim
    | obj ms => exact (Option.some_ne_none _ h.symm).elim
  rw [if_neg hrole] at h
  rw [if_neg fun hkey => hrole ((keyIs_decoded (by decide) name).1 hkey)]
  by_cases hcontent : name.decoded = ascii "content"
  · rw [if_pos hcontent] at h hok
    rw [if_pos ((keyIs_decoded (by decide) name).2 hcontent)]
    refine .inl ⟨.inr hcontent, ?_⟩
    have hnul : Fails (do
        skipWs
        if (← peek) = openBracket then parseContentParts msg
        else
          let content ← orFail parseStringHeap
          pure { msg with content := some content }) (0 :: behind) := by
      refine Runs.bind_fails skipWs_nul (Runs.bind_fails peek_nul ?_)
      rw [if_neg (by decide)]
      exact (parseStringHeap_cut (s := []) (t := []) (.nil (Nat.succ_pos _))).bind
    cases v with
    | str s =>
      rw [Value.text] at hcut
      rcases Cut.cons_cases hcut with rfl | ⟨t, rfl, -⟩
      · exact hnul
      · refine Runs.bind_fails (skipWs_stays (noWs_cons _ (by decide))) (Runs.bind_fails (peek_runs quote _) ?_)
        rw [if_neg (by decide)]
        exact (parseStringHeap_cut hcut).bind
    | arr es =>
      rw [Value.text] at hcut
      rcases Cut.cons_cases hcut with rfl | ⟨t, rfl, hes⟩
      · exact hnul
      · refine Runs.bind_fails (skipWs_stays (noWs_cons _ (by decide))) (Runs.bind_fails (peek_runs openBracket _) ?_)
        rw [if_pos rfl]
        exact parseContentParts_cut h hes (hok es rfl)
    | atom a => exact (Option.some_ne_none _ h.symm).elim
    | obj ms => exact (Option.some_ne_none _ h.symm).elim
  · rw [if_neg hcontent] at hok
    rw [if_neg fun hkey => hcontent ((keyIs_decoded (by decide) name).1 hkey)]
    exact .inr ⟨fun hp => hp.elim hrole hcontent, skipValue_stops hcut hok msg⟩

theorem messagesStep_nul (messages : List ChatMessage) :
    Runs (messagesStep messages) (0 :: behind) (.inr messages) (0 :: behind) := by
  refine Runs.bind peek_nul ?_
  rw [if_neg fun h => h.1 rfl]
  exact Runs.ret

theorem message_cut {v : Value} {messages messages' : List ChatMessage} (hroom : messages.length < chatMaxMessages)
    (h : message (parsed atof) v messages = some messages') {t : List UInt8} (hcut : Cut t v.text) (hne : t ≠ [])
    (hok : messageFollowed (parsed atof) v t) : Fails (messagesStep messages) (t ++ 0 :: behind) := by
  cases v with
  | obj ms =>
    obtain ⟨msg, hfold, -⟩ := Option.bind_eq_some_iff.1 h
    rw [Value.text] at hcut
    rcases Cut.cons_cases hcut with rfl | ⟨t, rfl, hms⟩
    · exact absurd rfl hne
    · refine Runs.bind_fails (peek_runs openBrace _) ?_
      rw [if_pos (by decide)]
      refine Runs.bind_fails (expectChar_runs (by decide) ⟨[], List.forall_mem_nil _⟩ _) ?_
      rw [if_neg (Nat.not_le.2 hroom)]
      refine Stops.bind_fails (members_stop (fun _ _ _ _ hstep => ⟨messageField_runs hstep, messageField_cuts hstep⟩)
        hfold hms (hok ms rfl)) fun a => ?_
      exact (expectChar_closes (by decide)).bind
  | str s => exact (Option.some_ne_none _ h.symm).elim
  | atom a => exact (Option.some_ne_none _ h.symm).elim
  | arr es => exact (Option.some_ne_none _ h.symm).elim

/-- Surplus messages that end too early are skipped up to the NUL, escapes and all. -/
theorem surplus_cut {es : Elements} {messages all : List ChatMessage} (hfull : messages.length = chatMaxMessages)
    (h : es.fold (message (parsed atof)) messages = some all) {t : List UInt8} (ht : t <+: es.tight)
    (hok : closeBracket ∉ t) : Runs (messagesStep messages) (t ++ 0 :: behind) (.inr messages) (0 :: behind) := by
  cases t with
  | nil => exact messagesStep_nul messages
  | cons c u =>
    have hnone : es.tight ≠ [] := by
      intro hnil
      rw [hnil] at ht
      exact absurd ht.length_le (Nat.not_succ_le_zero _)
    obtain ⟨l, hl⟩ := messages_brace h hnone
    have hnul := noNul_rule.elements es
    rw [es.text_eq] at hnul
    have hbytes : ∀ b ∈ u, b ≠ 0 ∧ b ≠ closeBracket := fun b hb =>
      ⟨fun heq => hnul (List.mem_append_right _ (ht.subset (List.mem_cons_of_mem _ (heq ▸ hb)))),
        fun heq => hok (List.mem_cons_of_mem _ (heq ▸ hb))⟩
    rw [hl] at ht
    obtain ⟨rfl, -⟩ := List.cons_prefix_cons.1 ht
    refine Runs.bind (peek_runs openBrace _) ?_
    rw [if_pos (by decide)]
    refine Runs.bind (expectChar_runs (by decide) ⟨[], List.forall_mem_nil _⟩ _) ?_
    rw [if_pos (Nat.le_of_eq hfull.symm)]
    refine Runs.bind (a := ()) ((skipToBracket_reaches _ hbytes).runs ?_) Runs.ret
    refine Runs.bind peek_nul ?_
    rw [if_neg fun h => h.1 rfl]
    exact Runs.ret

/-- Where the parser has room for no more messages, what there is of them has no bracket. -/
theorem messagesFollowed_full {F : Type} {R : Reading F} {es : Elements} {messages : List ChatMessage}
    (hfull : messages.length = chatMaxMessages) {t : List UInt8} :
    messagesFollowed R es messages t ↔ closeBracket ∉ t.take es.tight.length := by
  have hroom : ¬ messages.length < chatMaxMessages := by omega
  cases es with
  | empty w =>
    rw [Elements.tight, List.length_nil, List.take_zero]
    exact iff_of_true trivial List.not_mem_nil
  | last w v w' => rw [messagesFollowed, if_neg hroom, Elements.tight, List.length_append]
  | cons w v w' es =>
    rw [messagesFollowed, if_neg hroom, Elements.tight, List.length_append, List.length_append, List.length_cons,
      Nat.add_comm es.text.length, ← Nat.add_assoc]

theorem messages_cut : ∀ (es : Elements) {messages all : List ChatMessage}, messages.length ≤ chatMaxMessages →
    es.fold (message (parsed atof)) messages = some all → ∀ t, t <+: es.tight →
    messagesFollowed (parsed atof) es messages t → ∃ p, LoopCuts p messagesStep messages (t ++ 0 :: behind) behind := by
  intro es messages all hle h t ht hok
  by_cases hfull : messages.length = chatMaxMessages
  · have hbracket := (messagesFollowed_full hfull).1 hok
    rw [List.take_of_length_le ht.length_le] at hbracket
    exact ⟨False, .ends id (surplus_cut hfull h ht hbracket)⟩
  have hroom : messages.length < chatMaxMessages := by omega
  match es with
  | .empty w =>
    obtain rfl : t = [] := List.prefix_nil.1 ht
    exact ⟨False, .ends id (messagesStep_nul messages)⟩
  | .last w v w' =>
    rw [Elements.fold] at h
    rw [messagesFollowed, if_pos hroom] at hok
    exact element_cut (message_runs hroom h) (fun t hcut hne hok => message_cut hroom h hcut hne hok) messagesStep_nul w' ht hok
  | .cons w v w' es =>
    rw [Elements.fold] at h
    obtain ⟨messages', hb, hes⟩ := Option.bind_eq_some_iff.1 h
    have hnext := message_length hb
    rw [messagesFollowed, if_pos hroom] at hok
    exact separated_cut (message_runs hroom hb) (fun t hcut hne hok => message_cut hroom hb hcut hne hok) messagesStep_nul w'
      (messages_cut es (by omega) hes) ht hok.1 fun hlt => hok.2 hlt messages' hb

/-- The array of messages that ends too early. -/
theorem parseMessages_cut {es : Elements} {messages all : List ChatMessage} (hle : messages.length ≤ chatMaxMessages)
    (h : es.fold (message (parsed atof)) messages = some all) {t : List UInt8} (hcut : Cut t (Value.arr es).text)
    (hok : messagesFollowed (parsed atof) es messages (t.drop (es.lead.1.length + 1))) :
    Fails (parseMessages messages) (t ++ 0 :: behind) := by
  rw [Value.text] at hcut
  rcases Cut.cons_cases hcut with rfl | ⟨t, rfl, hes⟩
  · exact (expectChar_closes (by decide)).bind
  · refine Runs.bind_fails (expectChar_runs (by decide) ⟨[], List.forall_mem_nil _⟩ _) ?_
    obtain ⟨w, heq, hu, hnows⟩ := Elements.cut_tight hes.concat behind
    have hskip := skipWs_runs w hnows
    rw [← List.append_assoc, ← heq] at hskip
    refine Runs.bind_fails hskip ?_
    obtain ⟨p, hloop⟩ := @messages_cut _ atof behind es messages all hle h _ hu hok
    exact hloop.scan.stops.bind_fails fun a => (expectChar_closes (by decide)).bind

/-- The parser follows the whole array of messages if it has room for all, or no bracket stands in the others. -/
theorem surplus_of_followed : ∀ (es : Elements) {messages all : List ChatMessage} (rest : List UInt8),
    messages.length ≤ chatMaxMessages → es.fold (message (parsed atof)) messages = some all →
    messagesFollowed (parsed atof) es messages (es.tight ++ rest) →
    all.length ≤ chatMaxMessages ∨ closeBracket ∉ es.textFrom (chatMaxMessages - messages.length) := by
  intro es messages all rest hle h hok
  by_cases hfull : messages.length = chatMaxMessages
  · have hbracket := (messagesFollowed_full hfull).1 hok
    rw [List.take_left] at hbracket
    rw [hfull, Nat.sub_self, Elements.textFrom, es.text_eq, List.mem_append, not_or]
    refine .inr ⟨fun hmem => ?_, hbracket⟩
    exact absurd (es.lead.2 closeBracket hmem).2 (by decide)
  have hroom : messages.length < chatMaxMessages := by omega
  match es with
  | .empty w =>
    rw [Elements.fold, Option.some.injEq] at h
    exact .inl (h ▸ hle)
  | .last w v w' =>
    rw [Elements.fold] at h
    rw [message_length h]
    exact .inl hroom
  | .cons w v w' es =>
    rw [Elements.fold] at h
    obtain ⟨messages', hb, hes⟩ := Option.bind_eq_some_iff.1 h
    have hnext := message_length hb
    rw [messagesFollowed, if_pos hroom, Elements.tight] at hok
    have hafter := hok.2 (by
      simp only [List.length_append, List.length_cons]
      omega) messages' hb
    have hdrop : (v.text ++ w'.1 ++ comma :: es.text ++ rest).drop (v.text.length + w'.1.length + 1 + es.lead.1.length) =
        es.tight ++ rest := by
      rw [es.text_eq]
      have hshape : v.text ++ w'.1 ++ comma :: (es.lead.1 ++ es.tight) ++ rest =
          (v.text ++ w'.1 ++ [comma] ++ es.lead.1) ++ (es.tight ++ rest) := by
        simp only [List.append_assoc, List.cons_append, List.nil_append]
      rw [hshape]
      exact List.drop_left' (by simp only [List.length_append, List.length_singleton])
    rw [hdrop] at hafter
    rw [textFrom_cons w v w' es hroom, ← hnext]
    exact surplus_of_followed es rest (by omega) hes hafter

/-! ## The request -/

/-- `parse_number` takes any part of a number, also none of it. -/
theorem parseNumber_cut {a : Atom} {v : Value} (ha : numberAtom v = some a) {t : List UInt8} (hcut : Cut t v.text) :
    ∃ text, Runs parseNumber (t ++ 0 :: behind) text (0 :: behind) := by
  cases v with
  | atom b =>
    rw [numberAtom, Option.ite_none_right_eq_some] at ha
    rw [Value.text] at hcut
    have hall : t.all isNumberByte := List.all_eq_true.2 fun c hc => List.all_eq_true.1 ha.1 c (hcut.isPrefix.subset hc)
    have hnows : NoWs (t ++ 0 :: behind) := by
      cases t with
      | nil => exact noWs_nul behind
      | cons c t => exact noWs_cons _ (b.2.2 c (hcut.isPrefix.subset List.mem_cons_self)).1
    refine ⟨t.foldl (pushed 64) [], Runs.bind (skipWs_stays hnows) ((parseNumber_reaches _ [] hall).runs ?_)⟩
    refine Runs.bind peek_nul ?_
    rw [if_neg fun h => h.1 rfl]
    exact Runs.bind Runs.emit Runs.ret
  | str s => exact (Option.some_ne_none _ ha.symm).elim
  | arr es => exact (Option.some_ne_none _ ha.symm).elim
  | obj ms => exact (Option.some_ne_none _ ha.symm).elim

theorem strncmpEq_cut : ∀ {lit t : List UInt8}, 0 ∉ lit → Cut t lit →
    Runs (strncmpEq lit) (t ++ 0 :: behind) false (0 :: behind)
  | [], t, _, hcut => absurd hcut.shorter (Nat.not_lt_zero _)
  | c :: lit, t, hnul, hcut => by
    rw [List.mem_cons, not_or] at hnul
    rcases hcut.cons_cases with rfl | ⟨t, rfl, hcut'⟩
    · refine Runs.bind peek_nul ?_
      rw [if_neg hnul.1]
      exact Runs.ret
    · refine Runs.bind (peek_runs c _) ?_
      rw [if_pos rfl]
      exact Runs.bind (next_runs ..) (strncmpEq_cut hnul.2 hcut')

/-- `parse_bool` takes no part of a truth value. -/
theorem parseBool_cut {b : Bool} {t : List UInt8} (hcut : Cut t (ascii (if b then "true" else "false"))) :
    Runs parseBool (t ++ 0 :: behind) none (t ++ 0 :: behind) := by
  have hnows : NoWs (t ++ 0 :: behind) := by
    have hall : ∀ c ∈ ascii (if b then "true" else "false"), ¬ c ≤ 0x20 := by cases b <;> decide +kernel
    cases t with
    | nil => exact noWs_nul behind
    | cons c t => exact noWs_cons _ (hall c (hcut.isPrefix.subset List.mem_cons_self))
  have hno : ∀ b' : Bool, ∃ s, Runs (strncmpEq (ascii (if b' then "true" else "false"))) (t ++ 0 :: behind) false s := by
    intro b'
    by_cases hsame : b' = b
    · subst hsame
      exact ⟨_, strncmpEq_cut (by cases b' <;> decide) hcut⟩
    · cases t with
      | nil => exact ⟨_, strncmpEq_cut (by cases b' <;> decide) (.nil (by cases b' <;> decide))⟩
      | cons c t =>
        cases b <;> cases b'
        · exact absurd rfl hsame
        · obtain ⟨rfl, -⟩ := List.cons_prefix_cons.1 hcut.isPrefix
          exact ⟨_, rfl, rfl⟩
        · obtain ⟨rfl, -⟩ := List.cons_prefix_cons.1 hcut.isPrefix
          exact ⟨_, rfl, rfl⟩
        · exact absurd rfl hsame
  obtain ⟨_, htrue⟩ := hno true
  obtain ⟨_, hfalse⟩ := hno false
  refine Runs.bind (skipWs_stays hnows) (Runs.bind htrue.onCopy ?_)
  rw [if_neg Bool.false_ne_true]
  refine Runs.bind hfalse.onCopy ?_
  rw [if_neg Bool.false_ne_true]
  exact Runs.ret

/-- The fields whose value is checked. -/
def RequestStrict (name : Str) (_ : Nat) : Prop := name.decoded ∈ [ascii "model", ascii "messages", ascii "stream"]

/-- The members have their documented types; any text may follow the first `CHAT_MAX_MESSAGES` messages. -/
def typed (atof : Atof F) : Reading F := { parsed atof with surplus := fun _ => true }

theorem messages_typed {es : Elements} {messages all : List ChatMessage} (h : es.fold (message (typed atof)) messages = some all) :
    es.fold (message (parsed atof)) messages = some all :=
  es.fold_mono (fun _ _ _ => message_mono fun _ _ => id) h

/-- What the parser follows to its end it reads. -/
theorem requestMember_followed {name : Str} {v : Value} {req req' : ChatRequest F}
    (hle : req.messages.length ≤ chatMaxMessages) (h : requestMember (typed atof) name v req = some req')
    (hok : requestFollowed (parsed atof) name v req v.text) : requestMember (parsed atof) name v req = some req' := by
  change (if name.decoded = ascii "model" then _ else _) = some req' at h ⊢
  by_cases hmodel : name.decoded = ascii "model"
  · rwa [if_pos hmodel] at h ⊢
  rw [if_neg hmodel] at h ⊢
  by_cases hmessages : name.decoded = ascii "messages"
  · unfold requestFollowed at hok
    rw [if_pos hmessages] at h hok ⊢
    cases v with
    | arr es =>
      obtain ⟨all, hall, h⟩ := Option.bind_eq_some_iff.1 h
      rw [Option.ite_none_right_eq_some] at h
      have hfollowed := hok es rfl
      rw [Value.text, es.text_eq] at hfollowed
      have hdrop : (openBracket :: (es.lead.1 ++ es.tight) ++ [closeBracket]).drop (es.lead.1.length + 1) =
          es.tight ++ [closeBracket] := by
        rw [List.cons_append, List.drop_succ_cons, List.append_assoc, List.drop_left]
      rw [hdrop] at hfollowed
      have hsurplus := surplus_of_followed es [closeBracket] hle (messages_typed hall) hfollowed
      refine Option.bind_eq_some_iff.2 ⟨all, messages_typed hall, ?_⟩
      rw [if_pos (hsurplus.imp_right fun hmem => ?_)]
      · exact h.2
      · rw [parsed, Bool.not_eq_true', ← Bool.not_eq_true, List.contains_iff_mem]
        exact hmem
    | atom a => exact (Option.some_ne_none _ h.symm).elim
    | str s => exact (Option.some_ne_none _ h.symm).elim
    | obj ms => exact (Option.some_ne_none _ h.symm).elim
  · rwa [if_neg hmessages] at h ⊢

theorem requestField_cuts {name : Str} {v : Value} {req req' : ChatRequest F}
    (hle : req.messages.length ≤ chatMaxMessages) (h : requestMember (typed atof) name v req = some req') :
    FieldCuts 128 (requestField atof) RequestStrict (requestFollowed (parsed atof)) name v req := by
  intro t behind hcut hok
  unfold requestFollowed at hok
  simp only [requestMember, Option.bind_eq_bind] at h
  change (if name.decoded = ascii "model" then _ else _) = some req' at h
  unfold requestField
  have hmem : name.decoded = ascii "model" ∨ name.decoded = ascii "messages" ∨ name.decoded = ascii "stream" ↔
      RequestStrict name t.length := by
    unfold RequestStrict
    simp only [List.mem_cons, List.not_mem_nil, or_false]
  rw [← hmem]
  by_cases hmodel : name.decoded = ascii "model"
  · rw [if_pos hmodel] at h
    rw [if_pos ((keyIs_decoded (by decide) name).2 hmodel)]
    cases v with
    | str s =>
      rw [Value.text] at hcut
      rw [if_neg (by rw [hmodel]; decide)] at hok
      exact .inl ⟨.inl hmodel, (orFail_none (parseString_cut 128 ⟨[], List.forall_mem_nil _⟩ hcut hok behind)).bind⟩
    | atom a => exact (Option.some_ne_none _ h.symm).elim
    | arr es => exact (Option.some_ne_none _ h.symm).elim
    | obj ms => exact (Option.some_ne_none _ h.symm).elim
  rw [if_neg hmodel] at h
  rw [if_neg fun hkey => hmodel ((keyIs_decoded (by decide) name).1 hkey)]
  by_cases hmessages : name.decoded = ascii "messages"
  · rw [if_pos hmessages] at h hok
    rw [if_pos ((keyIs_decoded (by decide) name).2 hmessages)]
    cases v with
    | arr es =>
      obtain ⟨all, hall, -⟩ := Option.bind_eq_some_iff.1 h
      exact .inl ⟨.inr (.inl hmessages), (parseMessages_cut hle (messages_typed hall) hcut (hok es rfl)).bind⟩
    | atom a => exact (Option.some_ne_none _ h.symm).elim
    | str s => exact (Option.some_ne_none _ h.symm).elim
    | obj ms => exact (Option.some_ne_none _ h.symm).elim
  rw [if_neg hmessages] at h hok
  rw [if_neg fun hkey => hmessages ((keyIs_decoded (by decide) name).1 hkey)]
  have hnumber : ∀ (set : List UInt8 → ChatRequest F) {f : Atom → ChatRequest F},
      ((numberAtom v).bind fun a => some (f a)) = some req' → name.decoded ≠ ascii "stream" →
      CutsAt (name.decoded = ascii "model" ∨ name.decoded = ascii "messages" ∨ name.decoded = ascii "stream") (do
        let text ← parseNumber
        pure (set text)) (t ++ 0 :: behind) behind := by
    intro set f hbind hne
    obtain ⟨a, ha, -⟩ := Option.bind_eq_some_iff.1 hbind
    obtain ⟨text, hrun⟩ := @parseNumber_cut behind a v ha t hcut
    exact .inr ⟨fun hp => hp.elim hmodel fun hp => hp.elim hmessages hne, _, Runs.bind hrun Runs.ret⟩
  by_cases htemperature : name.decoded = ascii "temperature"
  · rw [if_pos htemperature] at h
    rw [if_pos ((keyIs_decoded (by decide) name).2 htemperature)]
    exact hnumber (fun t => { req with temperature := atof.float t }) h (by rw [htemperature]; decide)
  rw [if_neg htemperature] at h
  rw [if_neg fun hkey => htemperature ((keyIs_decoded (by decide) name).1 hkey)]
  by_cases htopP : name.decoded = ascii "top_p"
  · rw [if_pos htopP] at h
    rw [if_pos ((keyIs_decoded (by decide) name).2 htopP)]
    exact hnumber (fun t => { req with topP := atof.float t }) h (by rw [htopP]; decide)
  rw [if_neg htopP] at h
  rw [if_neg fun hkey => htopP ((keyIs_decoded (by decide) name).1 hkey)]
  by_cases hmaxTokens : name.decoded = ascii "max_tokens"
  · rw [if_pos hmaxTokens] at h
    rw [if_pos ((keyIs_decoded (by decide) name).2 hmaxTokens)]
    exact hnumber (fun t => { req with maxTokens := atof.int t }) h (by rw [hmaxTokens]; decide)
  rw [if_neg hmaxTokens] at h
  rw [if_neg fun hkey => hmaxTokens ((keyIs_decoded (by decide) name).1 hkey)]
  by_cases hstream : name.decoded = ascii "stream"
  · rw [if_pos hstream] at h
    rw [if_pos ((keyIs_decoded (by decide) name).2 hstream)]
    have hbool : ∀ b : Bool, v.text = ascii (if b then "true" else "false") → Fails (do
        let b ← orFail parseBool
        pure { req with stream := b }) (t ++ 0 :: behind) := by
      intro b hv
      rw [hv] at hcut
      exact (orFail_none (parseBool_cut hcut)).bind
    refine .inl ⟨.inr (.inr hstream), ?_⟩
    cases v with
    | atom a =>
      change (if a.1 = ascii "true" then _ else _) = some req' at h
      by_cases htrue : a.1 = ascii "true"
      · exact hbool true (by rw [Value.text, htrue]; rfl)
      · rw [if_neg htrue, Option.ite_none_right_eq_some] at h
        exact hbool false (by rw [Value.text, h.1]; rfl)
    | arr es => exact (Option.some_ne_none _ h.symm).elim
    | str s => exact (Option.some_ne_none _ h.symm).elim
    | obj ms => exact (Option.some_ne_none _ h.symm).elim
  · rw [if_neg fun hkey => hstream ((keyIs_decoded (by decide) name).1 hkey)]
    exact .inr ⟨fun hp => hp.elim hmodel fun hp => hp.elim hmessages hstream, skipValue_stops hcut hok req⟩

/-- Whether a request object that ends behind `n` bytes lacks its brace, ends in the name of a member or before
its colon, in white space in front of a member, or in the value of one of the members that are checked. -/
def TruncationNoticed (w : Ws) (ms : Members) (n : Nat) : Prop :=
  n ≤ w.1.length ∨ ms.Rejects RequestStrict (n - (w.1.length + 1))

/-- What there is of the request ends neither behind a backslash that `parse_string` reads, nor behind a bracket that
`parse_messages` takes for the end of its array. -/
def RequestFollowed (atof : Atof F) (w : Ws) (ms : Members) (t : List UInt8) : Prop :=
  ms.Followed (requestMember (typed atof)) (requestFollowed (parsed atof)) (chatRequestInit atof) (t.drop (w.1.length + 1))

/-- As far as the parser follows it, a request object that is cut off is rejected exactly at these places. -/
theorem truncated_iff (atof : Atof F) (ms : Members) (req : ChatRequest F)
    (hread : decodeRequest (typed atof) ms (chatRequestInit atof) = some req) (w : Ws) (t : List UInt8)
    (ht : t <+: w.1 ++ openBrace :: ms.text) (hok : RequestFollowed atof w ms t) :
    (∀ behind, Fails (chatRequestParse atof (chatRequestInit atof)) (t ++ 0 :: behind)) ↔
      TruncationNoticed w ms t.length := by
  have hcuts : ∀ behind, CutsAt (TruncationNoticed w ms t.length) (chatRequestParse atof (chatRequestInit atof))
      (t ++ 0 :: behind) behind := by
    intro behind
    have hbrace : ∀ w' : Ws, Fails (chatRequestParse atof (chatRequestInit atof)) (w'.1 ++ 0 :: behind) := by
      intro w'
      refine Runs.bind_fails (skipWs_runs w' (noWs_nul behind)) (Runs.bind_fails peek_nul ?_)
      rw [if_pos (by decide)]
      exact Fails.fail
    rcases prefix_append_cases ht with hcut | ⟨u, rfl, hu⟩
    · obtain ⟨w', rfl⟩ := ws_of_prefix hcut.isPrefix
      exact .inl ⟨.inl (Nat.le_of_lt hcut.shorter), hbrace w'⟩
    · cases u with
      | nil =>
        rw [List.append_nil]
        exact .inl ⟨.inl (Nat.le_refl _), hbrace w⟩
      | cons c u =>
        obtain ⟨rfl, hu'⟩ := List.cons_prefix_cons.1 hu
        have hdrop : (w.1 ++ openBrace :: u).drop (w.1.length + 1) = u := by
          rw [← List.drop_drop, List.drop_left]
          rfl
        unfold RequestFollowed at hok
        rw [hdrop] at hok
        have hloop : CutsAt (ms.Rejects RequestStrict u.length) (scan (fieldStep 128 (requestField atof)) (chatRequestInit atof))
            (u ++ 0 :: behind) behind := (members_cut (I := fun req : ChatRequest F => req.messages.length ≤ chatMaxMessages)
          (fun name v a a' hle hstep => ⟨fun hv => requestField_runs hle (requestMember_followed hle hstep hv),
            requestField_cuts hle hstep⟩) ms (Nat.zero_le _) hread u hu' hok).scan
        have hiff : TruncationNoticed w ms (w.1 ++ openBrace :: u).length ↔ ms.Rejects RequestStrict u.length := by
          have hlen : (w.1 ++ openBrace :: u).length = w.1.length + 1 + u.length := by
            simp only [List.length_append, List.length_cons]
            omega
          unfold TruncationNoticed
          rw [hlen, Nat.add_sub_cancel_left, or_iff_right (by omega)]
        have hstart : Continues (chatRequestParse atof (chatRequestInit atof)) (w.1 ++ openBrace :: u ++ 0 :: behind)
            (scan (fieldStep 128 (requestField atof)) (chatRequestInit atof)) (u ++ 0 :: behind) := by
          rw [List.append_assoc]
          refine (skipWs_runs w (noWs_cons _ (by decide))).continues.trans ((peek_runs openBrace _).continues.trans ?_)
          rw [if_neg (not_not.2 rfl)]
          exact (next_runs ..).continues
        rw [hiff]
        exact hloop.imp (And.imp_right hstart.fails) (And.imp_right fun ⟨a, hrun⟩ => ⟨a, hstart.runs hrun⟩)
  constructor
  · intro hfails
    rcases hcuts [] with ⟨hp, -⟩ | ⟨-, a, hrun⟩
    · exact hp
    · exact absurd (hfails []) hrun.not_fails
  · intro hp behind
    rcases hcuts behind with ⟨-, hfail⟩ | ⟨hnp, -⟩
    · exact hfail
    · exact absurd hp hnp

end

theorem quote_escapes : quote ≠ 0 ∧ quote ≠ 0x75 := by decide

theorem no_ws : ∀ c ∈ ([] : List UInt8), c ≠ 0 ∧ c ≤ 0x20 := List.forall_mem_nil _

/-- `{"content":"a\"b"}` -/
def escapedMessage : Elements :=
  .last ⟨[], no_ws⟩ (.obj (.last (Key.ofAscii "content") (.str (Str.ofAscii "a" ++ .escape quote quote_escapes :: Str.ofAscii "b"))
    ⟨[], no_ws⟩)) ⟨[], no_ws⟩

/-- The request up to the backslash in the content. -/
def escapedCut : List UInt8 := ascii "\x7b\x22messages\x22:[\x7b\x22content\x22:\x22a\\"

theorem truncated_iff_messages :
    escapedCut <+: openBrace :: (modelRequest escapedMessage).text ∧ EscapePending escapedCut ∧
      ∀ behind, Fails (chatRequestParse noNumbers (chatRequestInit noNumbers)) (escapedCut ++ 0 :: behind) := by
  have hcut : escapedCut <+: openBrace :: (modelRequest escapedMessage).text := by decide +kernel
  refine ⟨hcut, by decide +kernel, ?_⟩
  obtain ⟨req, hreq⟩ : ∃ req, decodeRequest (typed noNumbers) (modelRequest escapedMessage) (chatRequestInit noNumbers) =
      some req := Option.isSome_iff_exists.1 (by decide +kernel)
  have hfollowed : RequestFollowed noNumbers ⟨[], no_ws⟩ (modelRequest escapedMessage) escapedCut := by
    refine ⟨⟨fun h => absurd h (by decide +kernel), ?_⟩, fun h => absurd h (by decide +kernel)⟩
    unfold requestFollowed
    rw [if_pos (by decide +kernel)]
    rintro es ⟨⟩
    unfold escapedMessage
    rw [messagesFollowed, if_pos (by decide)]
    rintro ms ⟨⟩
    refine ⟨fun h => absurd h (by decide +kernel), ?_⟩
    unfold messageFieldFollowed
    rw [if_pos (by decide +kernel)]
    rintro es ⟨⟩
  have hnoticed : TruncationNoticed ⟨[], no_ws⟩ (modelRequest escapedMessage) escapedCut.length := by
    refine .inr (.inl ⟨by decide +kernel, .inr ⟨by decide +kernel, ?_⟩⟩)
    have hmember : (Key.ofAscii "messages").name.decoded ∈ [ascii "model", ascii "messages", ascii "stream"] := by
      decide +kernel
    exact hmember
  exact (truncated_iff noNumbers (modelRequest escapedMessage) req hreq ⟨[], no_ws⟩ escapedCut hcut hfollowed).2 hnoticed

/-- `{"stream":true` without its brace is taken. -/
theorem stream_truncated : ∃ (ms : Members) (req : ChatRequest Unit) (t behind : List UInt8),
    decodeRequest (documented noNumbers) ms (chatRequestInit noNumbers) = some req ∧ ms.Distinct ∧
    t = openBrace :: ms.text ∧ ¬ Fails (chatRequestParse noNumbers (chatRequestInit noNumbers)) (t ++ 0 :: behind) := by
  refine ⟨.last (Key.ofAscii "stream") (.atom ⟨ascii "true", by decide +kernel⟩) ⟨[], no_ws⟩, { chatRequestInit noNumbers with
    stream := true }, ascii "\x7b\x22stream\x22:true", [], by decide +kernel, by decide +kernel, by decide +kernel, ?_⟩
  have hstops : (chatRequestParse noNumbers (chatRequestInit noNumbers)
      (ascii "\x7b\x22stream\x22:true" ++ 0 :: [])).outcome = .ok { chatRequestInit noNumbers with stream := true } := by
    decide +kernel
  intro hfail
  cases hstops.symm.trans hfail

end BitForge.Api
