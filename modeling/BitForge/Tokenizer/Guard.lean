/-
The injection check against the encoding loop: whether every `<|` of a text that is accepted lies in a special token
that the loop consumes. The check looks at each `<|` and goes on behind what matches there, the loop takes the longest
match from the left at every position, so the two may cut a text differently.
-/
import BitForge.Tokenizer.Segments

namespace BitForge.Tokenizer

open Lib

/-- The bytes `<|` at a position. -/
def ControlAt (text : List UInt8) (p : Nat) : Prop := text[p]? = some 60 ∧ text[p + 1]? = some 124

theorem controlAt_zero {c : UInt8} {s : List UInt8} : ControlAt (c :: s) 0 ↔ c = 60 ∧ s.head? = some 124 := by
  unfold ControlAt
  rw [List.getElem?_cons_zero, Option.some.injEq, List.getElem?_cons_succ, ← List.head?_eq_getElem?]

theorem controlAt_drop {s : List UInt8} {n p : Nat} : ControlAt (s.drop n) p ↔ ControlAt s (n + p) := by
  unfold ControlAt
  rw [List.getElem?_drop, List.getElem?_drop, Nat.add_assoc]

/-- The cuts with their positions, the first at `off`. -/
def parts : Nat → List Cut → List (Nat × Cut)
  | _, [] => []
  | off, c :: cs => (off, c) :: parts (off + c.len) cs

def Cut.isSpecial : Cut → Bool
  | .special .. => true
  | .plain _ => false

section

variable (t : Tokenizer)

/-- The parts of a text that the encoding loop consumes one after the other. -/
def textParts (text : List UInt8) : List (Nat × Cut) := parts 0 (t.cuts text.length text)

/-- Both bytes at `p` lie in a span that the loop consumes as a special token. -/
def InSpecial (text : List UInt8) (p : Nat) : Prop :=
  ∃ x ∈ t.textParts text, x.2.isSpecial = true ∧ x.1 ≤ p ∧ p + 2 ≤ x.1 + x.2.len

/-- Every `<|` is in a special token, and so none is in a plain segment. -/
structure ControlGuarded (text : List UInt8) : Prop where
  inSpecial : ∀ p, ControlAt text p → t.InSpecial text p
  notPlain : ∀ x ∈ t.textParts text, x.2.isSpecial = false → ∀ p, ControlAt text p → ¬ (x.1 ≤ p ∧ p + 2 ≤ x.1 + x.2.len)

/-- The special string is the longest one at a position. -/
structure OccursAt (text w : List UInt8) (i : Nat) : Prop where
  special : w ∈ t.specialStrings
  isPrefix : w <+: text.drop i
  longest : ∀ v ∈ t.specialStrings, v <+: text.drop i → v.length ≤ w.length

/-- The special strings of a text keep off its `<|`: none ends between `<` and `|`, and where one with `<|` in front holds a
second `<|` at which none starts, no other one reaches over its front and ends before the second. -/
structure SpecialsApart (text : List UInt8) : Prop where
  noSplit : ∀ w i, t.OccursAt text w i → ¬ ControlAt text (i + w.length - 1)
  noCross : ∀ w i p, t.OccursAt text w i → ControlAt text i → i < p → p < i + w.length → ControlAt text p →
    (∀ u, ¬ t.OccursAt text u p) → ∀ v j, t.OccursAt text v j → j < i → i < j + v.length → p < j + v.length

/-- The special string at a position, which no other one reaches over from the left, splits a `<|` or leaves one behind it
in plain text. -/
def Collides (text : List UInt8) : Prop :=
  ∃ v j, t.OccursAt text v j ∧ (∀ w i, t.OccursAt text w i → i < j → i + w.length ≤ j) ∧
    (ControlAt text (j + v.length - 1) ∨
      ∃ p, j + v.length ≤ p ∧ ControlAt text p ∧ ∀ i, j + v.length ≤ i → i ≤ p → ∀ w, ¬ t.OccursAt text w i)

end

variable {t : Tokenizer}

/-! ## The positions of the parts -/

theorem parts_ge : ∀ {cs : List Cut} {off : Nat}, ∀ x ∈ parts off cs, off ≤ x.1
  | c :: cs, off, x, hx => by
    rcases List.mem_cons.1 hx with rfl | hx
    · exact le_refl _
    · exact (Nat.le_add_right _ _).trans (parts_ge x hx)

/-- Two parts that share a position are one. -/
theorem parts_disjoint : ∀ {cs : List Cut} {off p : Nat}, ∀ x ∈ parts off cs, ∀ y ∈ parts off cs,
    x.1 ≤ p ∧ p < x.1 + x.2.len → y.1 ≤ p ∧ p < y.1 + y.2.len → x = y
  | c :: cs, off, p, x, hx, y, hy, hpx, hpy => by
    rcases List.mem_cons.1 hx with rfl | hx <;> rcases List.mem_cons.1 hy with rfl | hy
    · rfl
    · have := parts_ge y hy
      dsimp only at hpx
      omega
    · have := parts_ge x hx
      dsimp only at hpy
      omega
    · exact parts_disjoint x hx y hy hpx hpy

/-- Every position is in a special token, or nothing special starts there. -/
theorem segmented_position {s : List UInt8} {cs : List Cut} (h : Segmented t s cs) : ∀ (off : Nat) {p : Nat}, p < s.length →
    (∃ x ∈ parts off cs, x.2.isSpecial = true ∧ x.1 ≤ off + p ∧ off + p < x.1 + x.2.len) ∨
      t.matchSpecialToken (s.drop p) = none := by
  induction h with
  | nil => exact fun off p hp => absurd hp (Nat.not_lt_zero p)
  | @special c s len id cs hmatch rest ih =>
    intro off p hp
    by_cases hin : p < len
    · exact .inl ⟨_, List.mem_cons_self, rfl, Nat.le_add_right _ _, by dsimp only [Cut.len]; omega⟩
    · have hle := (matchSpecialToken_some hmatch).2.1
      have hrest := ih (off + len) (p := p - len) (by rw [List.length_drop]; dsimp only at hle; omega)
      rw [List.drop_drop, show len + (p - len) = p by omega, show off + len + (p - len) = off + p by omega] at hrest
      rcases hrest with ⟨x, hx, hspan⟩ | hnone
      · exact .inl ⟨x, List.mem_cons_of_mem _ hx, hspan⟩
      · exact .inr hnone
  | @plain c s cs hmatch rest ih =>
    intro off p hp
    by_cases hin : p < t.plainLength (c :: s)
    · exact .inr (plainLength_no_match hin)
    · have hrest := ih (off + t.plainLength (c :: s)) (p := p - t.plainLength (c :: s)) (by rw [List.length_drop]; omega)
      rw [List.drop_drop, show t.plainLength (c :: s) + (p - t.plainLength (c :: s)) = p by omega,
        show off + t.plainLength (c :: s) + (p - t.plainLength (c :: s)) = off + p by omega] at hrest
      rcases hrest with ⟨x, hx, hspan⟩ | hnone
      · exact .inl ⟨x, List.mem_cons_of_mem _ hx, hspan⟩
      · exact .inr hnone

/-- The text of a special part is the match at its position. -/
theorem segmented_special {s : List UInt8} {cs : List Cut} (h : Segmented t s cs) : ∀ (off : Nat),
    ∀ x ∈ parts off cs, x.2.isSpecial = true → ∃ i m, x.1 = off + i ∧ x.2.len = m.1 ∧ t.matchSpecialToken (s.drop i) = some m := by
  induction h with
  | nil => exact fun off x hx => absurd hx List.not_mem_nil
  | @special c s len id cs hmatch rest ih =>
    intro off x hx hspecial
    rcases List.mem_cons.1 hx with rfl | hx
    · exact ⟨0, _, rfl, rfl, hmatch⟩
    · obtain ⟨i, m, hi, hlen, hm⟩ := ih _ x hx hspecial
      rw [List.drop_drop] at hm
      exact ⟨len + i, m, by rw [hi]; exact Nat.add_assoc .., hlen, hm⟩
  | @plain c s cs hmatch rest ih =>
    intro off x hx hspecial
    rcases List.mem_cons.1 hx with rfl | hx
    · cases hspecial
    · obtain ⟨i, m, hi, hlen, hm⟩ := ih _ x hx hspecial
      rw [List.drop_drop] at hm
      exact ⟨t.plainLength (c :: s) + i, m, by rw [hi]; exact Nat.add_assoc .., hlen, hm⟩

/-! ## Special strings and matches -/

/-- A match is the longest special string at its position. -/
theorem occursAt_of_match {text : List UInt8} {i : Nat} {m : Nat × Nat} (h : t.matchSpecialToken (text.drop i) = some m) :
    ∃ w, t.OccursAt text w i ∧ w.length = m.1 ∧ 0 < w.length := by
  obtain ⟨hpos, hle, -, -⟩ := matchSpecialToken_some h
  have hlen : ((text.drop i).take m.1).length = m.1 := by rw [List.length_take, Nat.min_eq_left hle]
  refine ⟨(text.drop i).take m.1, ⟨matchSpecialToken_mem h, List.take_prefix _ _, fun v hv hpre => ?_⟩, hlen, by omega⟩
  have hlong := matchSpecialToken_longest hv hpre
  rw [h] at hlong
  rwa [hlen]

theorem OccursAt.isMatch {text w : List UInt8} {i : Nat} (h : t.OccursAt text w i) :
    ∃ m, t.matchSpecialToken (text.drop i) = some m ∧ m.1 = w.length := by
  have hle := matchSpecialToken_longest h.special h.isPrefix
  cases hmatch : t.matchSpecialToken (text.drop i) with
  | none =>
    rw [hmatch] at hle
    exact absurd (List.length_eq_zero_iff.1 (Nat.le_zero.1 hle)) (specialStrings_ne_nil h.special)
  | some m =>
    rw [hmatch] at hle
    obtain ⟨v, hv, hlen, -⟩ := occursAt_of_match hmatch
    have hge := h.longest v hv.special hv.isPrefix
    have hm : w.length ≤ m.1 := hle
    exact ⟨m, rfl, by omega⟩

/-! ## The walk of the check -/

/-- The check matches a special token at every `<|`, or it passes over it inside a token that it matched at another. -/
theorem injectionCheck_position : ∀ (fuel : Nat) {s : List UInt8} {p : Nat}, s.length ≤ fuel →
    t.injectionCheck fuel s = true → ControlAt s p →
    (∃ m, t.matchSpecialToken (s.drop p) = some m) ∨
      ∃ i m, ControlAt s i ∧ t.matchSpecialToken (s.drop i) = some m ∧ i < p ∧ p < i + m.1
  | _, [], p, _, _, hcontrol => by
    have := hcontrol.1
    rw [List.getElem?_nil] at this
    cases this
  | fuel + 1, c :: s, p, hfuel, hcheck, hcontrol => by
    rw [List.length_cons] at hfuel
    rw [injectionCheck] at hcheck
    by_cases hhere : c = 60 ∧ s.head? = some 124
    · rw [if_pos hhere] at hcheck
      cases hmatch : t.matchSpecialToken (c :: s) with
      | none =>
        rw [hmatch] at hcheck
        cases hcheck
      | some m =>
        obtain ⟨len, id⟩ := m
        have hpos := (matchSpecialToken_some hmatch).1
        rw [hmatch] at hcheck
        dsimp only at hcheck hpos
        by_cases hp0 : p = 0
        · exact .inl ⟨_, by rw [hp0]; exact hmatch⟩
        by_cases hin : p < len
        · exact .inr ⟨0, _, controlAt_zero.2 hhere, hmatch, by omega, by dsimp only; omega⟩
        · have hrest := injectionCheck_position fuel (p := p - len)
            (by rw [List.length_drop, List.length_cons]; omega) hcheck
            (controlAt_drop.2 (by rwa [show len + (p - len) = p by omega]))
          rw [List.drop_drop, show len + (p - len) = p by omega] at hrest
          rcases hrest with hmatch' | ⟨i, m, hi, hm, hlo, hhi⟩
          · exact .inl hmatch'
          · rw [List.drop_drop] at hm
            exact .inr ⟨len + i, m, controlAt_drop.1 hi, hm, by omega, by omega⟩
    · rw [if_neg hhere] at hcheck
      cases p with
      | zero => exact absurd (controlAt_zero.1 hcontrol) hhere
      | succ p =>
        rcases injectionCheck_position fuel (p := p) (by omega) hcheck hcontrol with hmatch | ⟨i, m, hi, hm, hlo, hhi⟩
        · exact .inl hmatch
        · exact .inr ⟨i + 1, m, hi, hm, by omega, by omega⟩

/-! ## The check guards the loop -/

theorem mem_textParts_special {text : List UInt8} {x : Nat × Cut} (hx : x ∈ t.textParts text) (hspecial : x.2.isSpecial = true) :
    ∃ w, t.OccursAt text w x.1 ∧ w.length = x.2.len ∧ 0 < w.length := by
  obtain ⟨i, m, hi, hlen, hm⟩ := segmented_special (cuts_segmented text.length text (le_refl _)) 0 x hx hspecial
  obtain ⟨w, hw, hwlen, hpos⟩ := occursAt_of_match hm
  rw [Nat.zero_add] at hi
  exact ⟨w, hi ▸ hw, by omega, hpos⟩

theorem OccursAt.lt {text w : List UInt8} {i : Nat} (h : t.OccursAt text w i) : i < text.length := by
  by_contra hlast
  have hpre := h.isPrefix
  rw [List.drop_eq_nil_of_le (by omega)] at hpre
  exact specialStrings_ne_nil h.special (List.prefix_nil.1 hpre)

/-- Where a special string occurs, the position is in a special token of the loop. -/
theorem OccursAt.covered {text w : List UInt8} {i : Nat} (h : t.OccursAt text w i) :
    ∃ x ∈ t.textParts text, x.2.isSpecial = true ∧ x.1 ≤ i ∧ i < x.1 + x.2.len := by
  obtain ⟨m, hmatch, -⟩ := h.isMatch
  rcases segmented_position (cuts_segmented text.length text (le_refl _)) 0 h.lt with ⟨x, hx, hspecial, hlo, hhi⟩ | hnone
  · exact ⟨x, hx, hspecial, by omega, by omega⟩
  · rw [hmatch] at hnone
    cases hnone

theorem length_eq_of_occursAt {text w v : List UInt8} {i : Nat} (hw : t.OccursAt text w i) (hv : t.OccursAt text v i) :
    w.length = v.length :=
  Nat.le_antisymm (hv.longest w hw.special hw.isPrefix) (hw.longest v hv.special hv.isPrefix)

/-- A special token of the loop over the `<` of a `<|` holds both bytes. -/
theorem SpecialsApart.inSpecial {text : List UInt8} (h : t.SpecialsApart text) {x : Nat × Cut} (hx : x ∈ t.textParts text)
    (hspecial : x.2.isSpecial = true) {p : Nat} (hcontrol : ControlAt text p) (hlo : x.1 ≤ p) (hhi : p < x.1 + x.2.len) :
    t.InSpecial text p := by
  obtain ⟨w, hw, hlen, -⟩ := mem_textParts_special hx hspecial
  refine ⟨x, hx, hspecial, hlo, ?_⟩
  by_contra hend
  refine h.noSplit w x.1 hw ?_
  rwa [show x.1 + w.length - 1 = p by omega]

theorem SpecialsApart.guarded {text : List UInt8} (h : t.SpecialsApart text)
    (hcheck : t.injectionCheck text.length text = true) : t.ControlGuarded text := by
  have hin : ∀ p, ControlAt text p → t.InSpecial text p := by
    intro p hcontrol
    by_cases hoccurs : ∃ u, t.OccursAt text u p
    · obtain ⟨u, hu⟩ := hoccurs
      obtain ⟨x, hx, hspecial, hlo, hhi⟩ := hu.covered
      exact h.inSpecial hx hspecial hcontrol hlo hhi
    rcases injectionCheck_position text.length (le_refl _) hcheck hcontrol with ⟨m, hmatch⟩ | ⟨i, m, hi, hmatch, hlo, hhi⟩
    · obtain ⟨u, hu, -, -⟩ := occursAt_of_match hmatch
      exact absurd ⟨u, hu⟩ hoccurs
    · -- the loop has a token over the front of the one that the check matched
      obtain ⟨w, hw, hlen, -⟩ := occursAt_of_match hmatch
      obtain ⟨x, hx, hspecial, hxlo, hxhi⟩ := hw.covered
      obtain ⟨v, hv, hvlen, -⟩ := mem_textParts_special hx hspecial
      refine h.inSpecial hx hspecial hcontrol (by omega) ?_
      rcases Nat.lt_or_eq_of_le hxlo with hlt | heq
      · have := h.noCross w i p hw hi hlo (by omega) hcontrol (fun u hu => hoccurs ⟨u, hu⟩) v x.1 hv hlt (by omega)
        omega
      · have := length_eq_of_occursAt hw (heq ▸ hv)
        omega
  refine ⟨hin, fun x hx hplain p hcontrol hp => ?_⟩
  obtain ⟨y, hy, hspecial, hle, hlt⟩ := hin p hcontrol
  have hxy := parts_disjoint x hx y hy (p := p) ⟨hp.1, by omega⟩ ⟨hle, by omega⟩
  rw [hxy, hspecial] at hplain
  cases hplain

/-- A special string that no other one reaches over is a token of the loop. -/
theorem OccursAt.consumed {text v : List UInt8} {j : Nat} (h : t.OccursAt text v j)
    (hfree : ∀ w i, t.OccursAt text w i → i < j → i + w.length ≤ j) :
    ∃ x ∈ t.textParts text, x.2.isSpecial = true ∧ x.1 = j ∧ x.2.len = v.length := by
  obtain ⟨x, hx, hspecial, hlo, hhi⟩ := h.covered
  obtain ⟨w, hw, hlen, -⟩ := mem_textParts_special hx hspecial
  rcases Nat.lt_or_eq_of_le hlo with hlt | heq
  · have := hfree w x.1 hw hlt
    omega
  · exact ⟨x, hx, hspecial, heq, hlen.symm.trans (length_eq_of_occursAt (heq ▸ hw) h)⟩

theorem Collides.not_guarded {text : List UInt8} (h : t.Collides text) : ¬ t.ControlGuarded text := by
  intro hguarded
  obtain ⟨v, j, hv, hfree, hends⟩ := h
  obtain ⟨x, hx, -, hxj, hxlen⟩ := hv.consumed hfree
  have hpos := List.length_pos_iff.2 (specialStrings_ne_nil hv.special)
  rcases hends with hcontrol | ⟨p, hp, hcontrol, hnone⟩
  · -- the token that ends behind `<` and the one that holds `<|` share the position of `<`
    obtain ⟨y, hy, -, hle, hlt⟩ := hguarded.inSpecial _ hcontrol
    have hxy := parts_disjoint x hx y hy (p := j + v.length - 1) ⟨by omega, by omega⟩ ⟨hle, by omega⟩
    subst hxy
    omega
  · obtain ⟨y, hy, hspecial, hle, hlt⟩ := hguarded.inSpecial p hcontrol
    obtain ⟨w, hw, hwlen, hwpos⟩ := mem_textParts_special hy hspecial
    rcases Nat.lt_or_ge y.1 j with hbefore | hafter
    · have := hfree w y.1 hw hbefore
      omega
    · rcases Nat.lt_or_ge y.1 (j + v.length) with hinside | hbehind
      · have hxy := parts_disjoint x hx y hy (p := y.1) ⟨by omega, by omega⟩ ⟨le_refl _, by omega⟩
        subst hxy
        omega
      · exact hnone y.1 hbehind hle w hw

/-- The bytes `<|` and `<` stand in a special string only where the check and the loop see them alike. -/
def HarmlessString (w : List UInt8) : Prop := (∀ i, 0 < i → ¬ ControlAt w i) ∧ w.getLast? ≠ some 60

theorem prefix_getElem? {w s : List UInt8} (h : w <+: s) {i : Nat} (hi : i < w.length) : w[i]? = s[i]? := by
  obtain ⟨rest, rfl⟩ := h
  exact (List.getElem?_append_left hi).symm

theorem specialsApart_of_harmless {text : List UInt8} (hlist : ∀ w i, t.OccursAt text w i → HarmlessString w) :
    t.SpecialsApart text := by
  have hsplit : ∀ w i, t.OccursAt text w i → ¬ ControlAt text (i + w.length - 1) := by
    intro w i hw hcontrol
    have hpos := List.length_pos_iff.2 (specialStrings_ne_nil hw.special)
    refine (hlist w i hw).2 ?_
    rw [List.getLast?_eq_getElem?, prefix_getElem? hw.isPrefix (by omega), List.getElem?_drop, ← hcontrol.1]
    congr 1
    omega
  refine ⟨hsplit, fun w i p hw _ hlo hhi hcontrol _ v j _ _ _ => ?_⟩
  -- the second `<|` would be in the string or split by its end
  by_cases hend : p + 1 < i + w.length
  · refine absurd ?_ ((hlist w i hw).1 (p - i) (by omega))
    refine ⟨?_, ?_⟩
    · rw [prefix_getElem? hw.isPrefix (by omega), List.getElem?_drop, ← hcontrol.1]
      congr 1
      omega
    · rw [prefix_getElem? hw.isPrefix (by omega), List.getElem?_drop, ← hcontrol.2]
      congr 1
      omega
  · refine absurd ?_ (hsplit w i hw)
    rwa [show i + w.length - 1 = p by omega]

theorem fallback_harmless : ∀ w ∈ fallbackSpecials.map Prod.fst,
    (∀ i ∈ List.range w.length, 0 < i → w[i]? = some 60 → w[i + 1]? ≠ some 124) ∧ w.getLast? ≠ some 60 := by
  decide +kernel

/-- With the static list of the `.bin` tokenizers, every accepted text is guarded. -/
theorem controlGuarded_fallback (hstatic : t.specialTokens = []) {text : List UInt8} {maxTokens : Int} {tokens : List Nat}
    (h : t.encode text maxTokens = some tokens) : t.ControlGuarded text := by
  refine (specialsApart_of_harmless fun w i hw => ?_).guarded (encode_eq_some.1 h).2.1
  have hmem := hw.special
  unfold specialStrings at hmem
  rw [if_neg (by simp [hstatic])] at hmem
  obtain ⟨hinner, hlast⟩ := fallback_harmless w (List.mem_filter.1 hmem).1
  refine ⟨fun i h0 hcontrol => ?_, hlast⟩
  exact hinner i (List.mem_range.2 (List.getElem?_eq_some_iff.1 hcontrol.1).1) h0 hcontrol.1 hcontrol.2

/-- A user defined token ending in `<`, and a control token with a `<|` inside. -/
def overlappingSpecials : GGUFTokenizerMeta :=
  { model := some (ascii "gpt2")
    tokens := some (.strings [ascii "a<", ascii "<|b<|c|>"])
    scores := none
    merges := none
    bosTokenId := none
    tokenType := some (.int32 [4, 3]) }

theorem overlapping_specials (h : tokenizerLoadFromGguf overlappingSpecials = some t) :
    t.specialStrings = [ascii "a<", ascii "<|b<|c|>"] := by
  cases h
  rfl

end BitForge.Tokenizer
