/-
Texts that end too early: what the scanners of the request parser make of the first part of a string or
of a value, with the NUL of the body behind it.
-/
import BitForge.Api.JsonDecode

namespace BitForge.Api

open BitForge.Lib

/-! ## Escapes -/

/-- Where a text ends: outside of a string, in one, or behind a backslash in one. -/
inductive TextState
  | outside
  | inside
  | escaped
deriving DecidableEq, Repr

def TextState.next : TextState → UInt8 → TextState
  | outside, c => if c = quote then inside else outside
  | inside, c => if c = quote then outside else if c = backslash then escaped else inside
  | escaped, _ => inside

/-- The text ends behind the backslash of an escape. -/
def EscapePending (t : List UInt8) : Prop := t.foldl TextState.next .outside = .escaped

instance : DecidablePred EscapePending := fun t => inferInstanceAs (Decidable (t.foldl TextState.next .outside = .escaped))

/-- Every string of the text is closed. -/
def Balanced (t : List UInt8) : Prop := t.foldl TextState.next .outside = .outside

instance : DecidablePred Balanced := fun t => inferInstanceAs (Decidable (t.foldl TextState.next .outside = .outside))

theorem Balanced.bytes : ∀ {l : List UInt8}, (∀ c ∈ l, c ≠ quote) → Balanced l
  | [], _ => rfl
  | c :: l, h => by
    unfold Balanced
    rw [List.foldl_cons, TextState.next, if_neg (h c List.mem_cons_self)]
    exact Balanced.bytes fun d hd => h d (List.mem_cons_of_mem _ hd)

theorem Balanced.append {u v : List UInt8} (hu : Balanced u) (hv : Balanced v) : Balanced (u ++ v) := by
  unfold Balanced
  rw [List.foldl_append, hu]
  exact hv

/-- Only the strings that are not closed count. -/
theorem Balanced.pending {u : List UInt8} (hu : Balanced u) (t : List UInt8) : EscapePending (u ++ t) ↔ EscapePending t := by
  unfold EscapePending
  rw [List.foldl_append, hu]

theorem Balanced.not_pending {u : List UInt8} (hu : Balanced u) : ¬ EscapePending u := by
  unfold EscapePending
  rw [hu]
  decide

theorem StrItem.foldl_inside (item : StrItem) : item.text.foldl TextState.next .inside = .inside := by
  have hplain : ∀ c, PlainByte c → TextState.next .inside c = .inside := by
    intro c h
    rw [TextState.next, if_neg h.2.1, if_neg h.2.2]
  have hescape : TextState.next .inside backslash = .escaped := by decide
  cases item with
  | plain c h => exact hplain c h
  | escape c h =>
    rw [StrItem.text, List.foldl_cons, hescape]
    rfl
  | unicode c₁ c₂ c₃ c₄ h =>
    rw [StrItem.text, List.foldl_cons, hescape, List.foldl_cons, TextState.next]
    simp only [List.foldl_cons, List.foldl_nil, hplain c₁ (h c₁ (by simp)), hplain c₂ (h c₂ (by simp)),
      hplain c₃ (h c₃ (by simp)), hplain c₄ (h c₄ (by simp))]

theorem Str.foldl_inside : ∀ s : Str, s.body.foldl TextState.next .inside = .inside
  | [] => rfl
  | item :: s => by
    change (item.text ++ Str.body s).foldl TextState.next .inside = .inside
    rw [List.foldl_append, item.foldl_inside]
    exact Str.foldl_inside s

theorem next_quote : TextState.next .outside quote = .inside := by decide

theorem balanced_rule : TextRule Balanced where
  ws w := .bytes fun c hc => by
    rintro rfl
    exact absurd (w.2 quote hc).2 (by decide)
  atom a := .bytes fun c hc => by
    rintro rfl
    exact (a.2.2 quote hc).2 (by decide)
  str s := by
    have hbody : (quote :: s.body).foldl TextState.next .outside = .inside := by
      rw [List.foldl_cons, next_quote]
      exact s.foldl_inside
    unfold Balanced Str.text
    rw [List.foldl_append, hbody]
    decide
  separator b hb := .bytes fun c hc => by
    rw [List.mem_singleton.1 hc]
    rintro rfl
    exact absurd hb (by decide)
  append := .append
  enclosed hxy hinner := by
    have hx : ∀ {x y : UInt8}, IsPair x y → Balanced [x] ∧ Balanced [y] := by
      rintro x y (⟨rfl, rfl⟩ | ⟨rfl, rfl⟩) <;> decide
    exact ((hx hxy).1.append hinner).append (hx hxy).2

/-! ## Prefixes -/

/-- A proper prefix. -/
structure Cut (t u : List UInt8) : Prop where
  isPrefix : t <+: u
  shorter : t.length < u.length

/-- A prefix ends in the first part or behind it. -/
theorem prefix_append_cases {t u v : List UInt8} (h : t <+: u ++ v) : Cut t u ∨ ∃ t', t = u ++ t' ∧ t' <+: v := by
  by_cases hlt : t.length < u.length
  · exact .inl ⟨List.prefix_of_prefix_length_le h (List.prefix_append u v) (Nat.le_of_lt hlt), hlt⟩
  · obtain ⟨t', rfl⟩ := List.prefix_of_prefix_length_le (List.prefix_append u v) h (Nat.le_of_not_lt hlt)
    exact .inr ⟨t', rfl, (List.prefix_append_right_inj u).1 h⟩

theorem Cut.cons_cases {t u : List UInt8} {b : UInt8} (h : Cut t (b :: u)) : t = [] ∨ ∃ t', t = b :: t' ∧ Cut t' u := by
  obtain ⟨hpre, hlt⟩ := h
  rcases List.prefix_cons_iff.1 hpre with rfl | ⟨t', rfl, hpre'⟩
  · exact .inl rfl
  · exact .inr ⟨t', rfl, hpre', Nat.lt_of_succ_lt_succ hlt⟩

theorem Cut.nil {u : List UInt8} (h : 0 < u.length) : Cut [] u := ⟨List.nil_prefix, h⟩

/-- A proper prefix of a text and its last byte is a prefix of the text. -/
theorem Cut.concat {t u : List UInt8} {b : UInt8} (h : Cut t (u ++ [b])) : t <+: u := by
  refine List.prefix_of_prefix_length_le h.isPrefix (List.prefix_append u [b]) ?_
  have hlt := h.shorter
  rw [List.length_append, List.length_singleton] at hlt
  omega

theorem ws_of_prefix {t : List UInt8} {w : Ws} (h : t <+: w.1) : ∃ w' : Ws, w'.1 = t :=
  ⟨⟨t, fun c hc => w.2 c (h.subset hc)⟩, rfl⟩

theorem noWs_nul (behind : List UInt8) : NoWs (0 :: behind) := Or.inl rfl

/-! ## Programs that end at the NUL -/

section

variable {α β : Type} {r : Parser α} {f : α → Parser β} {s u behind : List UInt8} {a : α}

/-- The program fails, or it stops at the NUL. -/
def Stops (r : Parser α) (s behind : List UInt8) : Prop := Fails r s ∨ ∃ a, Runs r s a (0 :: behind)

theorem Stops.after (h : Runs r s a u) (hf : Stops (f a) u behind) : Stops (r >>= f) s behind := by
  rcases hf with hfail | ⟨b, hrun⟩
  · exact .inl (h.bind_fails hfail)
  · exact .inr ⟨b, h.bind hrun⟩

theorem Stops.bind_fails (h : Stops r s behind) (hf : ∀ a, Fails (f a) (0 :: behind)) : Fails (r >>= f) s := by
  rcases h with hfail | ⟨a, hrun⟩
  · exact hfail.bind
  · exact hrun.bind_fails (hf a)

theorem peek_nul : Runs peek (0 :: behind) 0 (0 :: behind) := peek_runs 0 behind

theorem skipWs_nul : Runs skipWs (0 :: behind) () (0 :: behind) := skipWs_stays (noWs_nul behind)

theorem expectChar_nul {c : UInt8} (hc : c ≠ 0) (w : Ws) : Fails (expectChar c) (w.1 ++ 0 :: behind) := by
  refine (skipWs_runs w (noWs_nul behind)).bind_fails (Runs.bind_fails peek_nul ?_)
  rw [if_pos hc.symm]
  exact Fails.fail

theorem parseString_nul (cap : Nat) (w : Ws) : Runs (parseString cap) (w.1 ++ 0 :: behind) none (0 :: behind) := by
  refine Runs.bind (skipWs_runs w (noWs_nul behind)) (Runs.bind peek_nul ?_)
  rw [if_pos (by decide)]
  exact Runs.ret

theorem orFail_none {r : Parser (Option α)} (h : Runs r s none u) : Fails (orFail r) s := h.bind_fails Fails.fail

/-! ## Strings -/

/-- Plain bytes reach the NUL. -/
theorem parseString_plain (cap : Nat) (behind : List UInt8) : ∀ {l : List UInt8} (dst : List UInt8),
    (∀ c ∈ l, PlainByte c) → ∃ dst', Reaches List.length (parseStringStep cap) dst (l ++ 0 :: behind) dst' (0 :: behind)
  | [], dst, _ => ⟨dst, .refl ..⟩
  | c :: l, dst, h => by
    obtain ⟨dst', hreach⟩ := parseString_plain cap behind (pushed cap dst c) fun d hd => h d (List.mem_cons_of_mem _ hd)
    have hstep := parseStringStep_runs cap dst (.plain c (h c List.mem_cons_self)) (l ++ 0 :: behind)
    exact ⟨dst', .step hstep (Nat.lt_succ_self _) hreach⟩

/-- The digits of a `\\u` escape that ends too early are left for the next iterations. -/
theorem skipHex_short {l : List UInt8} (hl : ∀ c ∈ l, PlainByte c) (hlen : l.length < 4) :
    Runs skipHex (0x75 :: (l ++ 0 :: behind)) () (0x75 :: (l ++ 0 :: behind)) := by
  have hpeek : ∀ k d t, (0x75 :: (l ++ 0 :: behind)).drop k = d :: t →
      Runs (peekAt k) (0x75 :: (l ++ 0 :: behind)) d (0x75 :: (l ++ 0 :: behind)) := by
    intro k d t hk
    refine ⟨?_, rfl⟩
    unfold peekAt
    rw [hk]
    rfl
  unfold skipHex
  match l, hl, hlen with
  | [], _, _ =>
    refine Runs.bind (hpeek 1 0 _ rfl) ?_
    rw [if_neg (not_not.2 rfl)]
    exact Runs.ret
  | [c₁], hl, _ =>
    refine Runs.bind (hpeek 1 c₁ _ rfl) ?_
    rw [if_pos (hl c₁ (by simp)).1]
    refine Runs.bind (hpeek 2 0 _ rfl) ?_
    rw [if_neg (not_not.2 rfl)]
    exact Runs.ret
  | [c₁, c₂], hl, _ =>
    refine Runs.bind (hpeek 1 c₁ _ rfl) ?_
    rw [if_pos (hl c₁ (by simp)).1]
    refine Runs.bind (hpeek 2 c₂ _ rfl) ?_
    rw [if_pos (hl c₂ (by simp)).1]
    refine Runs.bind (hpeek 3 0 _ rfl) ?_
    rw [if_neg (not_not.2 rfl)]
    exact Runs.ret
  | [c₁, c₂, c₃], hl, _ =>
    refine Runs.bind (hpeek 1 c₁ _ rfl) ?_
    rw [if_pos (hl c₁ (by simp)).1]
    refine Runs.bind (hpeek 2 c₂ _ rfl) ?_
    rw [if_pos (hl c₂ (by simp)).1]
    refine Runs.bind (hpeek 3 c₃ _ rfl) ?_
    rw [if_pos (hl c₃ (by simp)).1]
    refine Runs.bind (hpeek 4 0 _ rfl) ?_
    rw [if_neg (not_not.2 rfl)]
    exact Runs.ret

/-- A character of a string that ends too early. -/
theorem StrItem.cut_cases {item : StrItem} {t : List UInt8} (h : Cut t item.text) :
    t = [] ∨ t = [backslash] ∨ ∃ l, t = backslash :: 0x75 :: l ∧ (∀ c ∈ l, PlainByte c) ∧ l.length < 4 := by
  cases item with
  | plain c hc =>
    rcases h.cons_cases with rfl | ⟨t', -, hcut⟩
    · exact .inl rfl
    · exact absurd hcut.shorter (Nat.not_lt_zero _)
  | escape c hc =>
    rcases h.cons_cases with rfl | ⟨t', rfl, hcut⟩
    · exact .inl rfl
    · obtain rfl : t' = [] := List.length_eq_zero_iff.1 (Nat.lt_one_iff.1 hcut.shorter)
      exact .inr (.inl rfl)
  | unicode c₁ c₂ c₃ c₄ hc =>
    rcases h.cons_cases with rfl | ⟨t', rfl, hcut⟩
    · exact .inl rfl
    · rcases hcut.cons_cases with rfl | ⟨l, rfl, hcut'⟩
      · exact .inr (.inl rfl)
      · exact .inr (.inr ⟨l, rfl, fun c hl => hc c (hcut'.isPrefix.subset hl), hcut'.shorter⟩)

theorem parseString_body_cut (cap : Nat) (behind : List UInt8) : ∀ {s : Str} (dst : List UInt8) {t : List UInt8},
    t <+: s.body → t.foldl TextState.next .inside ≠ .escaped →
    ∃ dst', Reaches List.length (parseStringStep cap) dst (t ++ 0 :: behind) dst' (0 :: behind)
  | [], dst, t, hpre, _ => by
    obtain rfl : t = [] := List.prefix_nil.1 hpre
    exact ⟨dst, .refl ..⟩
  | item :: s, dst, t, hpre, hesc => by
    rcases prefix_append_cases (u := item.text) (v := Str.body s) hpre with hcut | ⟨t', rfl, hpre'⟩
    · rcases item.cut_cases hcut with rfl | rfl | ⟨l, rfl, hl, hlen⟩
      · exact ⟨dst, .refl ..⟩
      · exact absurd (by decide) hesc
      · obtain ⟨dst', hreach⟩ := parseString_plain cap behind (pushed cap dst 0x3F) hl
        refine ⟨dst', .step (u := l ++ 0 :: behind) ?_ (by simp) hreach⟩
        unfold parseStringStep parseChar
        refine Runs.bind (peek_runs backslash _) ?_
        rw [if_pos (by decide), if_pos rfl]
        refine Runs.bind (a := (0x3F : UInt8)) (u := 0x75 :: (l ++ 0 :: behind)) ?_
          (Runs.bind (push_runs ..) (Runs.bind (next_runs ..) Runs.ret))
        refine Runs.bind (next_runs ..) (Runs.bind ⟨rfl, rfl⟩ (Runs.bind (peek_runs 0x75 _) ?_))
        rw [if_pos rfl]
        exact Runs.bind (skipHex_short hl hlen) Runs.ret
    · rw [List.foldl_append, item.foldl_inside] at hesc
      obtain ⟨dst', hreach⟩ := parseString_body_cut cap behind (pushed cap dst item.decoded) hpre' hesc
      have hstep := parseStringStep_runs cap dst item (t' ++ 0 :: behind)
      rw [← List.append_assoc] at hstep
      refine ⟨dst', .step hstep ?_ hreach⟩
      have hpos := item.text_length_pos
      simp only [List.length_append]
      omega

/-- A string that ends too early, but not behind a backslash, is an error, found at the NUL. -/
theorem parseString_cut (cap : Nat) (w : Ws) {s : Str} {t : List UInt8} (h : Cut t s.text) (hesc : ¬ EscapePending t)
    (behind : List UInt8) : Runs (parseString cap) (w.1 ++ (t ++ 0 :: behind)) none (0 :: behind) := by
  rcases Cut.cons_cases h with rfl | ⟨t', rfl, hcut⟩
  · exact parseString_nul cap w
  · have hpre := hcut.concat
    refine Runs.bind (skipWs_runs w (noWs_cons _ (by decide))) (Runs.bind (peek_runs quote _) ?_)
    rw [if_neg (not_not.2 rfl)]
    have hbody : t'.foldl TextState.next .inside ≠ .escaped := by
      unfold EscapePending at hesc
      rwa [List.foldl_cons, next_quote] at hesc
    obtain ⟨dst, hreach⟩ := parseString_body_cut cap behind [] hpre hbody
    refine Runs.bind (next_runs ..) (hreach.runs ?_)
    refine Runs.bind peek_nul ?_
    rw [if_neg fun h => h.1 rfl, if_pos (by decide)]
    exact Runs.ret

theorem measure_plain (behind : List UInt8) : ∀ {l : List UInt8} (len : Nat), (∀ c ∈ l, PlainByte c) →
    ∃ len', Reaches List.length measureStep len (l ++ 0 :: behind) len' (0 :: behind)
  | [], len, _ => ⟨len, .refl ..⟩
  | c :: l, len, h => by
    obtain ⟨len', hreach⟩ := measure_plain behind (len + 1) fun d hd => h d (List.mem_cons_of_mem _ hd)
    exact ⟨len', .step (measureStep_plain (h c List.mem_cons_self) len _) (Nat.lt_succ_self _) hreach⟩

/-- The first pass over a part of a string finds no quote, behind a backslash neither. -/
theorem measure_body_cut (behind : List UInt8) : ∀ {s : Str} (len : Nat) {t : List UInt8}, t <+: s.body →
    ∃ len' s' u, Reaches List.length measureStep len (t ++ 0 :: behind) len' s' ∧ Runs (measureStep len') s' (.inr none) u := by
  have hnul : ∀ len, Runs (measureStep len) (0 :: behind) (.inr none) (0 :: behind) := by
    intro len
    refine Runs.bind peek_nul ?_
    rw [if_neg fun h => h.1 rfl, if_pos (by decide)]
    exact Runs.ret
  intro s
  induction s with
  | nil =>
    intro len t hpre
    obtain rfl : t = [] := List.prefix_nil.1 hpre
    exact ⟨len, _, _, .refl .., hnul len⟩
  | cons item s ih =>
    intro len t hpre
    rcases prefix_append_cases (u := item.text) (v := Str.body s) hpre with hcut | ⟨t', rfl, hpre'⟩
    · rcases item.cut_cases hcut with rfl | rfl | ⟨l, rfl, hl, hlen⟩
      · exact ⟨len, _, _, .refl .., hnul len⟩
      · refine ⟨len, _, 0 :: behind, .refl .., Runs.bind (peek_runs backslash _) ?_⟩
        rw [if_pos (by decide), if_pos rfl]
        refine Runs.bind (next_runs backslash _) (Runs.bind peek_nul ?_)
        rw [if_pos rfl]
        exact Runs.ret
      · obtain ⟨len', hreach⟩ := measure_plain behind (len + 1) hl
        exact ⟨len', _, _, .step (measureStep_escape (by decide) len _) (by simp) hreach, hnul len'⟩
    · obtain ⟨len', s', u, hreach, hend⟩ := ih (len + item.measured) hpre'
      have hitem := measure_item item len (t' ++ 0 :: behind)
      rw [← List.append_assoc] at hitem
      exact ⟨len', s', u, hitem.trans hreach, hend⟩

/-- The first pass over a string that ends too early finds the error. -/
theorem parseStringHeap_cut {s : Str} {t : List UInt8} (h : Cut t s.text) :
    Fails (orFail parseStringHeap) (t ++ 0 :: behind) := by
  rcases Cut.cons_cases h with rfl | ⟨t', rfl, hcut⟩
  · refine orFail_none (u := 0 :: behind) (Runs.bind skipWs_nul (Runs.bind peek_nul ?_))
    rw [if_pos (by decide)]
    exact Runs.ret
  · have hpre := hcut.concat
    refine orFail_none (u := quote :: t' ++ 0 :: behind) (Runs.bind (skipWs_stays (noWs_cons _ (by decide))) (Runs.bind (peek_runs quote _) ?_))
    rw [if_neg (not_not.2 rfl)]
    obtain ⟨len, s', u, hreach, hend⟩ := measure_body_cut behind 0 hpre
    exact Runs.bind (a := none) (Runs.onCopy (Runs.bind (next_runs ..) (hreach.runs hend))) Runs.ret

/-! ## Skipping -/

section

variable {o c : UInt8}

/-- An opening bracket stands outside of the strings. -/
theorem IsPair.pending (hp : IsPair o c) (t : List UInt8) : EscapePending (o :: t) ↔ EscapePending t := by
  have ho : Balanced [o] := by rcases hp with ⟨rfl, -⟩ | ⟨rfl, -⟩ <;> decide
  exact ho.pending t

/-- The counting loop passes the text at its depth, and reaches the end of every part of it that does not part an escape. -/
structure Skipped (o c : UInt8) (u : List UInt8) : Prop where
  balanced : Balanced u
  full : ∀ depth : Int, 0 < depth → ∀ rest, Reaches List.length (skipNestedStep o c) depth (u ++ rest) depth rest
  cut : ∀ depth : Int, 0 < depth → ∀ t, t <+: u → ¬ EscapePending t → ∀ behind,
    ∃ d, Reaches List.length (skipNestedStep o c) depth (t ++ 0 :: behind) d (0 :: behind)

theorem Skipped.append {u v : List UInt8} (hu : Skipped o c u) (hv : Skipped o c v) : Skipped o c (u ++ v) := by
  refine ⟨hu.balanced.append hv.balanced, ?_, ?_⟩
  · intro depth hd rest
    rw [List.append_assoc]
    exact (hu.full depth hd _).trans (hv.full depth hd rest)
  · intro depth hd t hpre hesc behind
    rcases prefix_append_cases hpre with hcut | ⟨t', rfl, hpre'⟩
    · exact hu.cut depth hd t hcut.isPrefix hesc behind
    · rw [hu.balanced.pending] at hesc
      obtain ⟨d, hreach⟩ := hv.cut depth hd t' hpre' hesc behind
      rw [List.append_assoc]
      exact ⟨d, (hu.full depth hd _).trans hreach⟩

theorem Skipped.bytes (hp : IsPair o c) {u : List UInt8} (hu : ∀ b ∈ u, b ≠ 0 ∧ b ≠ o ∧ b ≠ c ∧ b ≠ quote) :
    Skipped o c u where
  balanced := .bytes fun b hb => (hu b hb).2.2.2
  full depth _ rest := skipNested_bytes hp depth rest hu
  cut depth _ _ hpre _ behind := ⟨depth, skipNested_bytes hp depth (0 :: behind) fun b hb => hu b (hpre.subset hb)⟩

theorem Skipped.str (hp : IsPair o c) (s : Str) : Skipped o c s.text where
  balanced := balanced_rule.str s
  full depth _ rest := skipNested_str hp s depth rest
  cut depth _ t hpre hesc behind := by
    have hquote : quote ≠ o ∧ quote ≠ c := by rcases hp with ⟨rfl, rfl⟩ | ⟨rfl, rfl⟩ <;> decide
    by_cases hlt : t.length < s.text.length
    · have hcut : Cut t s.text := ⟨hpre, hlt⟩
      have hrun := parseString_cut 4096 ⟨[], nofun⟩ hcut hesc behind
      rcases hcut.cons_cases with rfl | ⟨t', rfl, -⟩
      · exact ⟨depth, .refl ..⟩
      · refine ⟨depth, .one ?_ (by simp)⟩
        refine Runs.bind (peek_runs quote _) ?_
        rw [if_neg (by decide), if_neg hquote.1, if_neg hquote.2, if_pos rfl]
        exact Runs.bind hrun Runs.ret
    · obtain rfl := hpre.eq_of_length_le (Nat.le_of_not_lt hlt)
      exact ⟨depth, skipNested_str hp s depth (0 :: behind)⟩

/-- An opening bracket keeps the depth positive. -/
theorem skipNested_opening (hp : IsPair o c) {x y : UInt8} (hxy : IsPair x y) {depth : Int} (hd : 0 < depth)
    (rest : List UInt8) : ∃ d, 0 < d ∧ Reaches List.length (skipNestedStep o c) depth (x :: rest) d rest := by
  by_cases hsame : x = o
  · subst hsame
    exact ⟨depth + 1, by omega, skipNested_open hp depth rest⟩
  · refine ⟨depth, hd, skipNested_plain ⟨?_, hsame, ?_, ?_⟩ depth rest⟩
    · rcases hxy with ⟨rfl, rfl⟩ | ⟨rfl, rfl⟩ <;> decide
    · rcases hxy with ⟨rfl, rfl⟩ | ⟨rfl, rfl⟩ <;> rcases hp with ⟨rfl, rfl⟩ | ⟨rfl, rfl⟩ <;> decide
    · rcases hxy with ⟨rfl, rfl⟩ | ⟨rfl, rfl⟩ <;> decide

theorem Skipped.enclosed (hp : IsPair o c) {x y : UInt8} (hxy : IsPair x y) {inner : List UInt8}
    (hinner : Skipped o c inner) : Skipped o c (x :: inner ++ [y]) where
  balanced := balanced_rule.enclosed hxy hinner.balanced
  full depth hd rest := skipNested_enclosed hp hxy hinner.full hd rest
  cut depth hd t hpre hesc behind := by
    by_cases hlt : t.length < (x :: inner ++ [y]).length
    · have hcut : Cut t (x :: (inner ++ [y])) := ⟨hpre, hlt⟩
      rcases hcut.cons_cases with rfl | ⟨t', rfl, hcut'⟩
      · exact ⟨depth, .refl ..⟩
      · rw [hxy.pending] at hesc
        obtain ⟨d, hpos, hopen⟩ := skipNested_opening hp hxy hd (t' ++ 0 :: behind)
        obtain ⟨d', hreach⟩ := hinner.cut d hpos t' hcut'.concat hesc behind
        exact ⟨d', hopen.trans hreach⟩
    · obtain rfl := hpre.eq_of_length_le (Nat.le_of_not_lt hlt)
      exact ⟨depth, skipNested_enclosed hp hxy hinner.full hd (0 :: behind)⟩

theorem skipped_rule (hp : IsPair o c) : TextRule (Skipped o c) where
  ws w := .bytes hp fun b hb => hp.ne_of_le (w.2 b hb)
  atom a := .bytes hp fun b hb => hp.ne_of_atom (a.2.2 b hb)
  str s := .str hp s
  separator b hb := .bytes hp fun _ hd => List.mem_singleton.1 hd ▸ hp.separator b hb
  append := .append
  enclosed hxy hinner := .enclosed hp hxy hinner

theorem skipNested_cut (hp : IsPair o c) {inner t : List UInt8} (hinner : Skipped o c inner) (hpre : t <+: inner)
    (hesc : ¬ EscapePending (o :: t)) : Runs (scan (skipNestedStep o c) 0) (o :: (t ++ 0 :: behind)) () (0 :: behind) := by
  obtain ⟨d, hreach⟩ := hinner.cut 1 (by decide) t hpre (mt (hp.pending t).2 hesc) behind
  refine ((skipNested_open hp 0 _).trans hreach).runs (Runs.bind peek_nul ?_)
  rw [if_pos rfl]
  exact Runs.ret

end

theorem skipValue_nul : Runs skipValue (0 :: behind) () (0 :: behind) := by
  refine Runs.bind skipWs_nul (Runs.bind peek_nul ?_)
  rw [if_neg (by decide), if_neg (by decide), if_neg (by decide)]
  exact skipAtom_runs (l := []) (by simp [EndsValue]) nofun

/-- `skip_value` of a value that ends too early, but not behind a backslash, stops at the NUL. -/
theorem skipValue_cut {v : Value} {t : List UInt8} (h : Cut t v.text) (hesc : ¬ EscapePending t) :
    Runs skipValue (t ++ 0 :: behind) () (0 :: behind) := by
  cases v with
  | atom a =>
    rw [Value.text] at h
    have hbytes : ∀ b ∈ t, AtomByte b := fun b hb => a.2.2 b (h.isPrefix.subset hb)
    cases t with
    | nil => exact skipValue_nul
    | cons b l =>
      have hne : ∀ d, AtomByte d → d ≠ 0 ∧ d ≠ comma ∧ d ≠ closeBrace ∧ d ≠ closeBracket := by
        intro d hatom
        refine ⟨?_, ?_, ?_, ?_⟩ <;> rintro rfl
        · exact hatom.1 (by decide)
        · exact hatom.2 (by decide)
        · exact hatom.2 (by decide)
        · exact hatom.2 (by decide)
      have hb := hbytes b List.mem_cons_self
      refine Runs.bind (skipWs_stays (noWs_cons _ hb.1)) (Runs.bind (peek_runs b _) ?_)
      rw [if_neg, if_neg, if_neg]
      · exact skipAtom_runs (by simp [EndsValue]) fun d hd => hne d (hbytes d hd)
      · rintro rfl
        exact hb.2 (by decide)
      · rintro rfl
        exact hb.2 (by decide)
      · rintro rfl
        exact hb.2 (by decide)
  | str s =>
    rw [Value.text] at h
    have hrun := parseString_cut 4096 ⟨[], nofun⟩ h hesc behind
    rcases Cut.cons_cases h with rfl | ⟨t', rfl, -⟩
    · exact skipValue_nul
    · refine Runs.bind (skipWs_stays (noWs_cons _ (by decide))) (Runs.bind (peek_runs quote _) ?_)
      rw [if_pos rfl]
      exact Runs.bind hrun Runs.ret
  | arr es =>
    rw [Value.text] at h
    rcases Cut.cons_cases h with rfl | ⟨t', rfl, hcut⟩
    · exact skipValue_nul
    · refine Runs.bind (skipWs_stays (noWs_cons _ (by decide))) (Runs.bind (peek_runs openBracket _) ?_)
      rw [if_neg (by decide), if_neg (by decide), if_pos rfl]
      exact skipNested_cut (.inr ⟨rfl, rfl⟩) ((skipped_rule (.inr ⟨rfl, rfl⟩)).elements es) hcut.concat hesc
  | obj ms =>
    rw [Value.text] at h
    rcases Cut.cons_cases h with rfl | ⟨t', rfl, hcut⟩
    · exact skipValue_nul
    · refine Runs.bind (skipWs_stays (noWs_cons _ (by decide))) (Runs.bind (peek_runs openBrace _) ?_)
      rw [if_neg (by decide), if_pos rfl]
      exact skipNested_cut (.inl ⟨rfl, rfl⟩) ((skipped_rule (.inl ⟨rfl, rfl⟩)).members ms) hcut.concat hesc

end

end BitForge.Api
