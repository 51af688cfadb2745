/-
How the encoding loop cuts a text: special tokens, each the longest one that matches, and plain segments up to the next
match. The cuts depend on the text and the special tokens only; `encode` is their encoding in order.
-/
import BitForge.Tokenizer.RoundTrip

namespace BitForge.Tokenizer

open Lib

/-! ## Longest matches -/

/-- The length of a match, 0 where there is none. -/
def matchLen (m : Option (Nat × Nat)) : Nat := m.elim 0 Prod.fst

section Fold

variable {α : Type} {f : Option (Nat × Nat) → α → Option (Nat × Nat)}

theorem foldl_matchLen_le (hmono : ∀ best p, matchLen best ≤ matchLen (f best p)) : ∀ (l : List α) (best : Option (Nat × Nat)),
    matchLen best ≤ matchLen (l.foldl f best)
  | [], _ => le_refl _
  | p :: l, best => (hmono best p).trans (foldl_matchLen_le hmono l (f best p))

/-- A round that takes every longer match leaves the longest of all. -/
theorem foldl_matchLen_ge (hmono : ∀ best p, matchLen best ≤ matchLen (f best p)) {u : α → Nat}
    (hu : ∀ best p, u p ≤ matchLen (f best p)) : ∀ (l : List α) (best : Option (Nat × Nat)), ∀ p ∈ l,
    u p ≤ matchLen (l.foldl f best)
  | q :: l, best, p, hp => by
    rcases List.mem_cons.1 hp with rfl | hp
    · exact (hu best p).trans (foldl_matchLen_le hmono l (f best p))
    · exact foldl_matchLen_ge hmono hu l (f best q) p hp

theorem foldl_invariant {P : Nat × Nat → Prop} : ∀ {l : List α} {best : Option (Nat × Nat)},
    (∀ p ∈ l, ∀ best, (∀ m ∈ best, P m) → ∀ m ∈ f best p, P m) → (∀ m ∈ best, P m) → ∀ m ∈ l.foldl f best, P m
  | [], _, _, hbest => hbest
  | p :: l, best, hf, hbest =>
    foldl_invariant (l := l) (fun q hq => hf q (List.mem_cons_of_mem _ hq)) (hf p List.mem_cons_self best hbest)

end Fold

variable (t : Tokenizer)

/-- The strings that `match_special_token` looks for: those of the list, or the fallbacks that are in the vocabulary. -/
def specialStrings : List (List UInt8) :=
  if t.specialTokens ≠ [] then t.specialTokens.map Prod.fst
  else (fallbackSpecials.map Prod.fst).filter fun s => (t.lookup s).isSome

variable {t}

theorem specialStrings_ne_nil {w : List UInt8} (hw : w ∈ t.specialStrings) : w ≠ [] := by
  unfold specialStrings at hw
  split at hw
  · obtain ⟨p, hp, rfl⟩ := List.mem_map.1 hw
    exact (t.special p hp).1
  · obtain ⟨p, hp, rfl⟩ := List.mem_map.1 (List.mem_filter.1 hw).1
    intro hnil
    have := fallbackSpecials_length p hp
    rw [hnil] at this
    exact absurd (this.2 ▸ this.1) (lt_irrefl 0)

theorem longerSpecial_mono {s : List UInt8} (best : Option (Nat × Nat)) (p : List UInt8 × Nat) :
    matchLen best ≤ matchLen (longerSpecial s best p) := by
  unfold longerSpecial
  split
  · next h => exact h.2.2.2.le
  · exact le_refl _

theorem longerFallback_mono {s : List UInt8} (best : Option (Nat × Nat)) (p : List UInt8 × Nat) :
    matchLen best ≤ matchLen (t.longerFallback s best p) := by
  unfold longerFallback
  split
  · split
    · split
      · next h => exact h.le
      · exact le_refl _
    · exact le_refl _
  · exact le_refl _

/-- No special string at the front of the text is longer than the match. -/
theorem matchSpecialToken_longest {s w : List UInt8} (hw : w ∈ t.specialStrings) (hpre : w <+: s) :
    w.length ≤ matchLen (t.matchSpecialToken s) := by
  have htake : s.take w.length = w := (List.prefix_iff_eq_take.1 hpre).symm
  have hle := hpre.length_le
  unfold specialStrings at hw
  unfold matchSpecialToken
  split at hw
  · next hne =>
    rw [if_pos hne]
    obtain ⟨p, hp, rfl⟩ := List.mem_map.1 hw
    have hround : ∀ (best : Option (Nat × Nat)) (q : List UInt8 × Nat),
        (if q.1 <+: s then q.1.length else 0) ≤ matchLen (longerSpecial s best q) := by
      intro best q
      split
      · next hq =>
        unfold longerSpecial
        split
        · exact le_refl _
        · next hno =>
          by_contra hlt
          refine hno ⟨by omega, hq.length_le, (List.prefix_iff_eq_take.1 hq).symm, Nat.lt_of_not_le hlt⟩
      · exact Nat.zero_le _
    have hge := foldl_matchLen_ge longerSpecial_mono hround t.specialTokens none p hp
    rwa [if_pos hpre] at hge
  · next hne =>
    rw [if_neg hne]
    obtain ⟨hmem, hfound⟩ := List.mem_filter.1 hw
    obtain ⟨p, hp, rfl⟩ := List.mem_map.1 hmem
    obtain ⟨id, hid⟩ := Option.isSome_iff_exists.1 hfound
    have hlen := (fallbackSpecials_length p hp).2
    have hround : ∀ (best : Option (Nat × Nat)) (q : List UInt8 × Nat),
        (if q.2 ≤ s.length ∧ s.take q.2 = q.1.take q.2 ∧ (t.lookup q.1).isSome then q.2 else 0) ≤
          matchLen (t.longerFallback s best q) := by
      intro best q
      split
      · next hq =>
        obtain ⟨id', hid'⟩ := Option.isSome_iff_exists.1 hq.2.2
        unfold longerFallback
        rw [if_pos ⟨hq.1, hq.2.1⟩, hid']
        dsimp only
        split
        · exact le_refl _
        · next hno => exact Nat.le_of_not_lt hno
      · exact Nat.zero_le _
    have hge := foldl_matchLen_ge longerFallback_mono hround fallbackSpecials none p hp
    rw [if_pos ⟨by omega, by rw [hlen, htake, List.take_length], hfound⟩] at hge
    omega

/-- What matches is a special string. -/
theorem matchSpecialToken_mem {s : List UInt8} {m : Nat × Nat} (h : t.matchSpecialToken s = some m) :
    s.take m.1 ∈ t.specialStrings := by
  unfold matchSpecialToken at h
  unfold specialStrings
  split at h
  · next hne =>
    rw [if_pos hne]
    refine foldl_invariant (P := fun m => s.take m.1 ∈ t.specialTokens.map Prod.fst) (fun p hp best hbest m hm => ?_)
      (fun m hm => absurd hm (Option.not_mem_none m)) m h
    unfold longerSpecial at hm
    split at hm
    · next hcond =>
      cases hm
      rw [hcond.2.2.1]
      exact List.mem_map_of_mem hp
    · exact hbest m hm
  · next hne =>
    rw [if_neg hne]
    refine foldl_invariant
      (P := fun m => s.take m.1 ∈ (fallbackSpecials.map Prod.fst).filter fun s => (t.lookup s).isSome)
      (fun p hp best hbest m hm => ?_) (fun m hm => absurd hm (Option.not_mem_none m)) m h
    unfold longerFallback at hm
    split at hm
    · next hcond =>
      split at hm
      · next id hid =>
        split at hm
        · cases hm
          rw [hcond.2, (fallbackSpecials_length p hp).2, List.take_length]
          exact List.mem_filter.2 ⟨List.mem_map_of_mem hp, by rw [hid]; rfl⟩
        · exact hbest m hm
      · exact hbest m hm
    · exact hbest m hm

/-! ## The cuts -/

/-- What the encoding loop takes off the front of what is left of the text. -/
inductive Cut
  | special (len id : Nat)
  | plain (len : Nat)
deriving DecidableEq, Repr

def Cut.len : Cut → Nat
  | .special len _ => len
  | .plain len => len

variable (t)

/-- The cuts of a text, in their order. -/
inductive Segmented : List UInt8 → List Cut → Prop
  | nil : Segmented [] []
  | special {c : UInt8} {s : List UInt8} {len id : Nat} {cs : List Cut} (hmatch : t.matchSpecialToken (c :: s) = some (len, id))
      (rest : Segmented ((c :: s).drop len) cs) : Segmented (c :: s) (.special len id :: cs)
  | plain {c : UInt8} {s : List UInt8} {cs : List Cut} (hmatch : t.matchSpecialToken (c :: s) = none)
      (rest : Segmented ((c :: s).drop (t.plainLength (c :: s))) cs) :
      Segmented (c :: s) (.plain (t.plainLength (c :: s)) :: cs)

/-- The cuts as a function; every cut takes at least one byte. -/
def cuts : Nat → List UInt8 → List Cut
  | 0, _ => []
  | _ + 1, [] => []
  | fuel + 1, c :: s =>
    match t.matchSpecialToken (c :: s) with
    | some (len, id) => .special len id :: cuts fuel ((c :: s).drop len)
    | none => .plain (t.plainLength (c :: s)) :: cuts fuel ((c :: s).drop (t.plainLength (c :: s)))

/-- The encoding of the cuts of a text behind the tokens written so far. -/
def encodeCuts (maxTokens : Nat) : List UInt8 → List Cut → List Nat → Option (List Nat)
  | _, [], tokens => some tokens
  | s, .special len id :: cs, tokens =>
    if maxTokens ≤ tokens.length then none else encodeCuts maxTokens (s.drop len) cs (tokens ++ [id])
  | s, .plain len :: cs, tokens =>
    match t.encodeSegment (s.take len) (maxTokens - tokens.length) with
    | none => none
    | some segment => encodeCuts maxTokens (s.drop len) cs (tokens ++ segment)

variable {t}

theorem plainLength_pos {c : UInt8} {s : List UInt8} (h : t.matchSpecialToken (c :: s) = none) :
    0 < t.plainLength (c :: s) := by
  rw [plainLength, h]
  exact Nat.succ_pos _

theorem plainLength_le : ∀ s : List UInt8, t.plainLength s ≤ s.length
  | [] => le_refl _
  | c :: s => by
    have := plainLength_le s
    rw [plainLength, List.length_cons]
    split <;> omega

/-- No special token starts in the plain text before the next match. -/
theorem plainLength_no_match : ∀ {s : List UInt8} {i : Nat}, i < t.plainLength s → t.matchSpecialToken (s.drop i) = none
  | [], i, h => absurd h (Nat.not_lt_zero i)
  | c :: s, i, h => by
    rw [plainLength] at h
    split at h
    · exact absurd h (Nat.not_lt_zero i)
    · next hnone =>
      cases i with
      | zero => exact Option.not_isSome_iff_eq_none.1 (by simpa using hnone)
      | succ i => exact plainLength_no_match (s := s) (Nat.lt_of_succ_lt_succ h)

theorem cuts_segmented : ∀ (fuel : Nat) (s : List UInt8), s.length ≤ fuel → Segmented t s (t.cuts fuel s)
  | 0, s, h => by
    rw [List.length_eq_zero_iff.1 (Nat.le_zero.1 h)]
    exact .nil
  | fuel + 1, [], _ => .nil
  | fuel + 1, c :: s, h => by
    rw [List.length_cons] at h
    unfold cuts
    split
    · next len id hmatch =>
      have hpos := (matchSpecialToken_some hmatch).1
      refine .special hmatch (cuts_segmented fuel _ ?_)
      rw [List.length_drop, List.length_cons]
      omega
    · next hmatch =>
      have hpos := plainLength_pos hmatch
      refine .plain hmatch (cuts_segmented fuel _ ?_)
      rw [List.length_drop, List.length_cons]
      omega

/-- The encoding loop encodes the cuts. -/
theorem encodeLoop_eq {maxTokens : Nat} : ∀ {fuel : Nat} {s : List UInt8} {tokens : List Nat}, s.length ≤ fuel →
    t.encodeLoop maxTokens fuel s tokens = t.encodeCuts maxTokens s (t.cuts fuel s) tokens
  | 0, [], tokens, _ => rfl
  | fuel + 1, [], tokens, _ => rfl
  | fuel + 1, c :: s, tokens, h => by
    rw [List.length_cons] at h
    unfold encodeLoop cuts
    cases hmatch : t.matchSpecialToken (c :: s) with
    | some m =>
      obtain ⟨len, id⟩ := m
      have hpos := (matchSpecialToken_some hmatch).1
      dsimp only [encodeCuts]
      rw [encodeLoop_eq (by rw [List.length_drop, List.length_cons]; omega)]
    | none =>
      have hpos := plainLength_pos hmatch
      dsimp only [encodeCuts]
      cases t.encodeSegment ((c :: s).take (t.plainLength (c :: s))) (maxTokens - tokens.length) with
      | none => rfl
      | some segment =>
        dsimp only
        rw [encodeLoop_eq (by rw [List.length_drop, List.length_cons]; omega)]

/-- What `tokenizer_encode` returns is the encoding of the cuts of a text that passes the injection check. -/
theorem encode_eq_some {text : List UInt8} {maxTokens : Int} {tokens : List Nat} :
    t.encode text maxTokens = some tokens ↔ 0 < maxTokens ∧ t.injectionCheck text.length text = true ∧
      t.encodeCuts maxTokens.toNat text (t.cuts text.length text) [] = some tokens := by
  unfold encode
  by_cases hpos : maxTokens ≤ 0
  · rw [if_pos hpos]
    exact iff_of_false nofun fun h => by omega
  rw [if_neg hpos]
  by_cases hcheck : t.injectionCheck text.length text = true
  · rw [if_pos hcheck, encodeLoop_eq (le_refl _)]
    exact ⟨fun h => ⟨by omega, hcheck, h⟩, fun h => h.2.2⟩
  · rw [if_neg hcheck]
    exact iff_of_false nofun fun h => hcheck h.2.1

end BitForge.Tokenizer
