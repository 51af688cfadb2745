/-
Encoding and decoding: the tokens of a text spell its bytes piece by piece, and decoding gives the
text back exactly if every piece is readable, that is, its token is decoded to the piece.
-/
import BitForge.Tokenizer.Decode

namespace BitForge.Tokenizer

open Lib

/-! ## Pieces -/

/-- A part of the text that became one token: a special token, or bytes of a plain segment. -/
structure Piece where
  token : Nat
  bytes : List UInt8
  special : Bool
deriving DecidableEq, Repr

variable (t : Tokenizer)

/-- The token is one of the vocabulary, and its string is the bytes, mapped where the piece is plain. -/
structure Piece.Spells (p : Piece) : Prop where
  lt : p.token < t.vocabSize
  ne_nil : p.bytes ≠ []
  str_special : p.special = true → t.str p.token = p.bytes
  str_plain : p.special = false → t.str p.token = p.bytes.flatMap byteUnicode

/-- The text as pieces, and their tokens. -/
structure Splits (text : List UInt8) (tokens : List Nat) (pieces : List Piece) : Prop where
  tokens_eq : tokens = pieces.map Piece.token
  text_eq : pieces.flatMap Piece.bytes = text
  spells : ∀ p ∈ pieces, p.Spells t

/-- Every byte has a token. -/
def HasBytes : Prop := ∀ c, ∃ id < t.vocabSize, t.str id = byteUnicode c

variable {t}

theorem Splits.append {text text' : List UInt8} {tokens tokens' : List Nat} {pieces pieces' : List Piece}
    (h : Splits t text tokens pieces) (h' : Splits t text' tokens' pieces') :
    Splits t (text ++ text') (tokens ++ tokens') (pieces ++ pieces') := by
  refine ⟨?_, ?_, fun p hp => ?_⟩
  · rw [h.tokens_eq, h'.tokens_eq, List.map_append]
  · rw [List.flatMap_append, h.text_eq, h'.text_eq]
  · rcases List.mem_append.1 hp with hp | hp
    · exact h.spells p hp
    · exact h'.spells p hp

theorem Splits.nil : Splits t [] [] [] := ⟨rfl, rfl, nofun⟩

/-! ## A segment -/

theorem byteToken_spec (hbytes : HasBytes t) (c : UInt8) : t.byteToken c < t.vocabSize ∧ t.str (t.byteToken c) = byteUnicode c := by
  unfold byteToken
  cases h : t.lookup (byteUnicode c) with
  | some id => exact t.lookup_some h
  | none =>
    obtain ⟨id, hid, hstr⟩ := hbytes c
    exact absurd hstr (t.lookup_none h hid)

theorem splits_bytes (hbytes : HasBytes t) (text : List UInt8) :
    Splits t text (text.map t.byteToken) (text.map fun c => ⟨t.byteToken c, [c], false⟩) := by
  refine ⟨by rw [List.map_map]; rfl, ?_, fun p hp => ?_⟩
  · rw [List.flatMap_map]
    exact List.flatMap_singleton' text
  · obtain ⟨c, -, rfl⟩ := List.mem_map.1 hp
    obtain ⟨hlt, hstr⟩ := byteToken_spec hbytes c
    exact ⟨hlt, List.cons_ne_nil _ _, nofun, fun _ => by rw [hstr]; simp⟩

/-- A merge joins two neighbours whose strings are the token's string together. -/
theorem scanPairs_pair : ∀ {tokens : List Nat} {i : Nat} {best : Best} {p : Nat × Nat},
    (t.scanPairs i best tokens).pair = some p → best.pair = some p ∨
      ∃ pre a b post, tokens = pre ++ a :: b :: post ∧ p.1 = i + pre.length ∧ t.mergedToken a b = some p.2
  | [], _, _, _, h => .inl h
  | [_], _, _, _, h => .inl h
  | a :: b :: tokens, i, best, p, h => by
    rw [scanPairs] at h
    rcases scanPairs_pair h with hbest | ⟨pre, a', b', post, htokens, hplace, hmerged⟩
    · unfold Best.consider at hbest
      split at hbest
      · next id hid =>
        split at hbest
        · cases hbest
          exact .inr ⟨[], a, b, tokens, rfl, rfl, hid⟩
        · exact .inl hbest
      · exact .inl hbest
    · refine .inr ⟨a :: pre, a', b', post, by rw [htokens]; rfl, ?_, hmerged⟩
      rw [hplace, List.length_cons]
      omega

theorem bestPair_some {tokens : List Nat} {p : Nat × Nat} (h : t.bestPair tokens = some p) :
    ∃ pre a b post, tokens = pre ++ a :: b :: post ∧ p.1 = pre.length ∧ t.mergedToken a b = some p.2 := by
  rcases scanPairs_pair h with hbest | ⟨pre, a, b, post, htokens, hplace, hmerged⟩
  · cases hbest
  · exact ⟨pre, a, b, post, htokens, by rw [hplace, Nat.zero_add], hmerged⟩

theorem mergedToken_some {a b id : Nat} (h : t.mergedToken a b = some id) :
    id < t.vocabSize ∧ t.str id = t.str a ++ t.str b := by
  unfold mergedToken at h
  split at h
  · cases h
  · exact t.lookup_some h

/-- One merge: two plain pieces become one. -/
theorem splits_merge {text : List UInt8} {tokens : List Nat} {pieces : List Piece} (h : Splits t text tokens pieces)
    (hplain : ∀ p ∈ pieces, p.special = false) {i id : Nat} (hbest : t.bestPair tokens = some (i, id)) :
    ∃ pieces', Splits t text (mergeAt tokens i id) pieces' ∧ ∀ p ∈ pieces', p.special = false := by
  obtain ⟨pre, a, b, post, htokens, rfl, hmerged⟩ := bestPair_some hbest
  obtain ⟨hlt, hstr⟩ := mergedToken_some hmerged
  have hmap := h.tokens_eq.symm.trans htokens
  obtain ⟨before, rest, rfl, rfl, hrest⟩ := List.map_eq_append_iff.1 hmap
  obtain ⟨x, rest', rfl, rfl, hrest'⟩ := List.map_eq_cons_iff.1 hrest
  obtain ⟨y, after, rfl, rfl, rfl⟩ := List.map_eq_cons_iff.1 hrest'
  have hx := h.spells x (by simp)
  have hy := h.spells y (by simp)
  have hxplain := hplain x (by simp)
  have hyplain := hplain y (by simp)
  refine ⟨before ++ ⟨id, x.bytes ++ y.bytes, false⟩ :: after, ⟨?_, ?_, fun p hp => ?_⟩, fun p hp => ?_⟩
  · rw [htokens]
    unfold mergeAt
    simp [List.drop_append]
  · rw [← h.text_eq]
    simp
  · rcases List.mem_append.1 hp with hp | hp
    · exact h.spells p (List.mem_append_left _ hp)
    · rcases List.mem_cons.1 hp with rfl | hp
      · refine ⟨hlt, by simp [hx.ne_nil], nofun, fun _ => ?_⟩
        rw [hstr, hx.str_plain hxplain, hy.str_plain hyplain, List.flatMap_append]
      · exact h.spells p (by simp [hp])
  · rcases List.mem_append.1 hp with hp | hp
    · exact hplain p (List.mem_append_left _ hp)
    · rcases List.mem_cons.1 hp with rfl | hp
      · rfl
      · exact hplain p (by simp [hp])

theorem mergeLoop_splits {text : List UInt8} : ∀ {fuel : Nat} {tokens : List Nat} {pieces : List Piece},
    Splits t text tokens pieces → (∀ p ∈ pieces, p.special = false) →
    ∃ pieces', Splits t text (t.mergeLoop fuel tokens) pieces' ∧ ∀ p ∈ pieces', p.special = false
  | 0, _, pieces, h, hplain => ⟨pieces, h, hplain⟩
  | fuel + 1, tokens, pieces, h, hplain => by
    rw [mergeLoop]
    cases hbest : t.bestPair tokens with
    | none => exact ⟨pieces, h, hplain⟩
    | some p =>
      obtain ⟨pieces', h', hplain'⟩ := splits_merge h hplain hbest
      exact mergeLoop_splits h' hplain'

theorem encodeSegment_splits (hbytes : HasBytes t) {text : List UInt8} {maxTokens : Nat} {tokens : List Nat}
    (h : t.encodeSegment text maxTokens = some tokens) : ∃ pieces, Splits t text tokens pieces := by
  obtain ⟨init, hinit, rfl⟩ := Option.map_eq_some_iff.1 h
  obtain rfl := initialTokens_some hinit
  obtain ⟨pieces, hpieces, -⟩ := @mergeLoop_splits t text (text.map t.byteToken).length _ _ (splits_bytes hbytes text)
    (fun p hp => by obtain ⟨c, -, rfl⟩ := List.mem_map.1 hp; rfl)
  exact ⟨pieces, hpieces⟩

/-! ## The encoding loop -/

theorem fallbackSpecials_length : ∀ p ∈ fallbackSpecials, 0 < p.2 ∧ p.2 = p.1.length := by decide

/-- The best match of a list of special tokens: one whose string the text starts with. -/
def IsMatch (t : Tokenizer) (s : List UInt8) (m : Nat × Nat) : Prop :=
  0 < m.1 ∧ m.1 ≤ s.length ∧ m.2 < t.vocabSize ∧ t.str m.2 = s.take m.1

theorem foldl_isMatch {α : Type} {s : List UInt8} {f : Option (Nat × Nat) → α → Option (Nat × Nat)} :
    ∀ {l : List α} {best : Option (Nat × Nat)},
    (∀ p ∈ l, ∀ best, (∀ m ∈ best, IsMatch t s m) → ∀ m ∈ f best p, IsMatch t s m) →
    (∀ m ∈ best, IsMatch t s m) → ∀ m ∈ l.foldl f best, IsMatch t s m
  | [], _, _, hbest => hbest
  | p :: l, best, hf, hbest =>
    foldl_isMatch (l := l) (fun q hq => hf q (List.mem_cons_of_mem _ hq)) (hf p List.mem_cons_self best hbest)

theorem matchSpecialToken_some {s : List UInt8} {m : Nat × Nat} (h : t.matchSpecialToken s = some m) : IsMatch t s m := by
  unfold matchSpecialToken at h
  split at h
  · refine foldl_isMatch (fun p hp best hbest m hm => ?_) (fun m hm => absurd hm (Option.not_mem_none m)) m h
    obtain ⟨-, hlt, hstr⟩ := t.special p hp
    unfold longerSpecial at hm
    split at hm
    · next hcond =>
      cases hm
      exact ⟨hcond.1, hcond.2.1, hlt, hstr.trans hcond.2.2.1.symm⟩
    · exact hbest m hm
  · refine foldl_isMatch (fun p hp best hbest m hm => ?_) (fun m hm => absurd hm (Option.not_mem_none m)) m h
    obtain ⟨hpos, hlen⟩ := fallbackSpecials_length p hp
    unfold longerFallback at hm
    split at hm
    · next hcond =>
      split at hm
      · next id hid =>
        split at hm
        · cases hm
          obtain ⟨hlt, hstr⟩ := t.lookup_some hid
          refine ⟨hpos, hcond.1, hlt, ?_⟩
          rw [hstr, hcond.2, hlen, List.take_length]
        · exact hbest m hm
      · exact hbest m hm
    · exact hbest m hm

theorem encodeLoop_splits (hbytes : HasBytes t) {maxTokens : Nat} : ∀ {fuel : Nat} {s : List UInt8} {tokens out : List Nat},
    t.encodeLoop maxTokens fuel s tokens = some out → ∃ more pieces, out = tokens ++ more ∧ Splits t s more pieces
  | _, [], tokens, out, h => by
    unfold encodeLoop at h
    cases h
    exact ⟨[], [], (List.append_nil _).symm, .nil⟩
  | 0, c :: s, tokens, out, h => by cases h
  | fuel + 1, c :: s, tokens, out, h => by
    rw [encodeLoop] at h
    split at h
    · next len id hmatch =>
      obtain ⟨hpos, hle, hlt, hstr⟩ := matchSpecialToken_some hmatch
      split at h
      · cases h
      · obtain ⟨more, pieces, rfl, hsplits⟩ := encodeLoop_splits hbytes h
        have hone : Splits t ((c :: s).take len) [id] [⟨id, (c :: s).take len, true⟩] := by
          refine ⟨rfl, List.append_nil _, fun p hp => ?_⟩
          rw [List.mem_singleton.1 hp]
          refine ⟨hlt, fun hnil => ?_, fun _ => hstr, nofun⟩
          have := congrArg List.length hnil
          rw [List.length_take, List.length_nil] at this
          omega
        refine ⟨[id] ++ more, [⟨id, (c :: s).take len, true⟩] ++ pieces, List.append_assoc .., ?_⟩
        have := hone.append hsplits
        rwa [List.take_append_drop] at this
    · dsimp only at h
      split at h
      · cases h
      · next segment hsegment =>
        obtain ⟨more, pieces, rfl, hsplits⟩ := encodeLoop_splits hbytes h
        obtain ⟨first, hfirst⟩ := encodeSegment_splits hbytes hsegment
        refine ⟨segment ++ more, first ++ pieces, List.append_assoc .., ?_⟩
        have := hfirst.append hsplits
        rwa [List.take_append_drop] at this

/-- What the encoder returns spells the text. -/
theorem encode_splits (hbytes : HasBytes t) {text : List UInt8} {maxTokens : Int} {tokens : List Nat}
    (h : t.encode text maxTokens = some tokens) : ∃ pieces, Splits t text tokens pieces := by
  unfold encode at h
  split at h
  · cases h
  split at h
  · obtain ⟨more, pieces, rfl, hsplits⟩ := encodeLoop_splits hbytes h
    exact ⟨pieces, hsplits⟩
  · cases h

/-! ## Characters -/

/-- The character of a byte is one ASCII byte or two bytes, is read whole and becomes the byte. -/
structure ReadsBack (char : List UInt8) (c : UInt8) : Prop where
  shape : char.length = 1 ∧ char.getD 0 0 < 0x80 ∨ char.length = 2
  whole : (bpeDecodeUtf8Cp char).2 = char.length
  byte : (bpeDecodeUtf8Cp char).1.bind bpeCpToByte = some c

instance (char : List UInt8) (c : UInt8) : Decidable (ReadsBack char c) :=
  decidable_of_iff ((char.length = 1 ∧ char.getD 0 0 < 0x80 ∨ char.length = 2) ∧ (bpeDecodeUtf8Cp char).2 = char.length ∧
    (bpeDecodeUtf8Cp char).1.bind bpeCpToByte = some c) ⟨fun h => ⟨h.1, h.2.1, h.2.2⟩, fun h => ⟨h.1, h.2, h.3⟩⟩

theorem byteUnicodeTable_reads : ∀ p ∈ byteUnicodeTable.zipIdx, ReadsBack p.1 (UInt8.ofNat p.2) := by decide +kernel

theorem length_byteUnicodeTable : byteUnicodeTable.length = 256 := by decide +kernel

theorem byteUnicode_mem (c : UInt8) : (byteUnicode c, c.toNat) ∈ byteUnicodeTable.zipIdx := by
  have hc : c.toNat < byteUnicodeTable.length := by
    rw [length_byteUnicodeTable]
    exact c.toNat_lt
  unfold byteUnicode
  rw [List.getD_eq_getElem?_getD, List.getElem?_eq_getElem hc, Option.getD_some]
  exact List.mk_mem_zipIdx_iff_getElem?.2 (List.getElem?_eq_getElem hc)

theorem readsBack (c : UInt8) : ReadsBack (byteUnicode c) c := by
  have h := byteUnicodeTable_reads _ (byteUnicode_mem c)
  rwa [UInt8.ofNat_toNat] at h

theorem length_byteUnicode (c : UInt8) : 1 ≤ (byteUnicode c).length ∧ (byteUnicode c).length ≤ 2 := by
  rcases (readsBack c).shape with ⟨h, -⟩ | h <;> omega

/-- What is read at the start of a text does not depend on what follows. -/
theorem bpeDecodeUtf8Cp_append {l : List UInt8} (h : l.length = 1 ∧ l.getD 0 0 < 0x80 ∨ l.length = 2) (s : List UInt8) :
    bpeDecodeUtf8Cp (l ++ s) = bpeDecodeUtf8Cp l := by
  match l, h with
  | [a], .inl ⟨_, ha⟩ =>
    have ha' : a < 0x80 := ha
    unfold bpeDecodeUtf8Cp
    simp [ha']
  | [a, b], .inr _ => rfl

theorem bpeDecodeUtf8Cp_byteUnicode (c : UInt8) (s : List UInt8) :
    (bpeDecodeUtf8Cp (byteUnicode c ++ s)).2 = (byteUnicode c).length ∧
      (bpeDecodeUtf8Cp (byteUnicode c ++ s)).1.bind bpeCpToByte = some c := by
  rw [bpeDecodeUtf8Cp_append (readsBack c).shape]
  exact ⟨(readsBack c).whole, (readsBack c).byte⟩

/-- A plain text is decoded to its bytes as far as the buffer goes. -/
theorem bpeDecodeLoop_plain {outCap : Nat} : ∀ {bytes : List UInt8} {fuel : Nat} {out : List UInt8},
    (bytes.flatMap byteUnicode).length ≤ fuel →
    bpeDecodeLoop outCap fuel (bytes.flatMap byteUnicode) out = out ++ bytes.take (outCap - 1 - out.length)
  | [], fuel, out, _ => by cases fuel <;> simp [bpeDecodeLoop]
  | c :: bytes, fuel, out, hfuel => by
    rw [List.flatMap_cons] at hfuel ⊢
    obtain ⟨hpos, -⟩ := length_byteUnicode c
    obtain ⟨hlen, hbyte⟩ := bpeDecodeUtf8Cp_byteUnicode c (bytes.flatMap byteUnicode)
    rw [List.length_append] at hfuel
    obtain ⟨a, s, hcons⟩ : ∃ a s, byteUnicode c ++ bytes.flatMap byteUnicode = a :: s :=
      List.exists_cons_of_length_pos (by rw [List.length_append]; omega)
    cases fuel with
    | zero => omega
    | succ fuel =>
      rw [hcons, bpeDecodeLoop, ← hcons]
      by_cases hroom : out.length + 1 < outCap
      · rw [if_pos hroom, hlen, List.drop_left]
        unfold bpeWritten
        rw [hbyte, bpeDecodeLoop_plain (by omega), List.append_assoc, List.length_append, List.length_singleton,
          show outCap - 1 - out.length = outCap - 1 - (out.length + 1) + 1 by omega, List.take_succ_cons]
        rfl
      · rw [if_neg hroom, show outCap - 1 - out.length = 0 by omega, List.take_zero, List.append_nil]

/-- Every character of a text is written as itself: no two-byte character of it is in the byte table. -/
def passesThrough : Nat → List UInt8 → Bool
  | 0, _ => true
  | _, [] => true
  | fuel + 1, c :: s =>
    bpeWritten 2 (c :: s) == (c :: s).take (bpeDecodeUtf8Cp (c :: s)).2 &&
      passesThrough fuel ((c :: s).drop (bpeDecodeUtf8Cp (c :: s)).2)

theorem bpeCpToByte_ascii {c : UInt8} (hc : c < 0x80) : ∀ b ∈ bpeCpToByte c.toNat, b = c := by
  have htable : ∀ n < 128, (bpeCpToByte n).getD (UInt8.ofNat n) = UInt8.ofNat n := by decide +kernel
  intro b hb
  have hbyte := htable c.toNat hc
  rwa [Option.mem_def.1 hb, Option.getD_some, UInt8.ofNat_toNat] at hbyte

theorem bpeDecodeUtf8Cp_len {c : UInt8} {s : List UInt8} :
    0 < (bpeDecodeUtf8Cp (c :: s)).2 ∧ (bpeDecodeUtf8Cp (c :: s)).2 ≤ (c :: s).length ∧ (bpeDecodeUtf8Cp (c :: s)).2 ≤ 2 := by
  unfold bpeDecodeUtf8Cp
  dsimp only
  split
  · simp
  split
  · next h =>
    cases s with
    | nil => exact absurd rfl h.2.1
    | cons d s => simp
  · simp

/-- A character is written in at most its own bytes, and in as many only as itself. -/
theorem bpeWritten_spec {room : Nat} {c : UInt8} {s : List UInt8} :
    (bpeWritten room (c :: s)).length ≤ (bpeDecodeUtf8Cp (c :: s)).2 ∧
    ((bpeWritten room (c :: s)).length = (bpeDecodeUtf8Cp (c :: s)).2 → 0 < room →
      bpeWritten 2 (c :: s) = (c :: s).take (bpeDecodeUtf8Cp (c :: s)).2) ∧
    (bpeWritten 2 (c :: s) = (c :: s).take (bpeDecodeUtf8Cp (c :: s)).2 → (bpeDecodeUtf8Cp (c :: s)).2 ≤ room →
      bpeWritten room (c :: s) = (c :: s).take (bpeDecodeUtf8Cp (c :: s)).2) := by
  obtain ⟨hpos, hle, htwo⟩ := @bpeDecodeUtf8Cp_len c s
  unfold bpeWritten
  cases hbyte : (bpeDecodeUtf8Cp (c :: s)).1.bind bpeCpToByte with
  | none =>
    dsimp only
    rw [List.length_take, List.length_take, Nat.min_eq_left hle]
    refine ⟨Nat.min_le_right .., fun _ _ => ?_, fun _ hroom => ?_⟩
    · exact List.take_of_length_le (by rw [List.length_take]; omega)
    · exact List.take_of_length_le (by rw [List.length_take]; omega)
  | some b =>
    dsimp only
    refine ⟨hpos, fun hone _ => ?_, fun h _ => h⟩
    -- a character of one byte with an entry in the table is ASCII, and its own entry
    obtain ⟨cp, hcp, hb⟩ := Option.bind_eq_some_iff.1 hbyte
    unfold bpeDecodeUtf8Cp at hcp hone ⊢
    dsimp only at hcp hone ⊢
    split at hcp
    · next hascii =>
      cases hcp
      rw [if_pos hascii]
      rw [bpeCpToByte_ascii hascii b hb]
      rfl
    split at hcp
    · next hnot htwo' =>
      rw [if_neg hnot, if_pos htwo'] at hone
      cases hone
    · cases hcp

/-- Any C string is decoded to at most its length, and to its length only if every character passes
through and the buffer holds it; then it is copied. -/
theorem bpeDecodeLoop_spec {outCap : Nat} : ∀ {fuel : Nat} {s out : List UInt8}, s.length ≤ fuel →
    (bpeDecodeLoop outCap fuel s out).length ≤ out.length + s.length ∧
    ((bpeDecodeLoop outCap fuel s out).length = out.length + s.length →
      passesThrough fuel s = true ∧ (s = [] ∨ out.length + s.length < outCap)) ∧
    (passesThrough fuel s = true → out.length + s.length < outCap → bpeDecodeLoop outCap fuel s out = out ++ s)
  | 0, s, out, hfuel => by
    obtain rfl := List.length_eq_zero_iff.1 (Nat.le_zero.1 hfuel)
    exact ⟨Nat.le_refl _, fun _ => ⟨rfl, .inl rfl⟩, fun _ _ => (List.append_nil out).symm⟩
  | fuel + 1, [], out, _ => ⟨Nat.le_refl _, fun _ => ⟨rfl, .inl rfl⟩, fun _ _ => (List.append_nil out).symm⟩
  | fuel + 1, c :: s, out, hfuel => by
    obtain ⟨hpos, hle, -⟩ := @bpeDecodeUtf8Cp_len c s
    rw [bpeDecodeLoop]
    by_cases hroom : out.length + 1 < outCap
    · obtain ⟨hwlen, hwself, hwcopy⟩ := @bpeWritten_spec (outCap - 1 - out.length) c s
      rw [if_pos hroom]
      generalize hw : bpeWritten (outCap - 1 - out.length) (c :: s) = w at *
      have hrest := @bpeDecodeLoop_spec outCap fuel ((c :: s).drop (bpeDecodeUtf8Cp (c :: s)).2) (out ++ w)
        (by rw [List.length_drop]; omega)
      rw [List.length_append, List.length_drop] at hrest
      obtain ⟨hshort, hfull, hcopy⟩ := hrest
      refine ⟨by omega, fun heq => ?_, fun hpass hfits => ?_⟩
      · obtain ⟨hpass, hfits⟩ := hfull (by omega)
        refine ⟨?_, .inr ?_⟩
        · rw [passesThrough, hpass, Bool.and_true, beq_iff_eq]
          exact hwself (by omega) (by omega)
        · rcases hfits with hnil | hfits
          · have hdrop := congrArg List.length hnil
            rw [List.length_drop, List.length_nil] at hdrop
            have hwroom : w.length ≤ outCap - 1 - out.length := by
              rw [← hw]
              unfold bpeWritten
              split
              · rw [List.length_singleton]
                omega
              · rw [List.length_take]
                omega
            omega
          · omega
      · rw [passesThrough, Bool.and_eq_true, beq_iff_eq] at hpass
        have hwtake := hwcopy hpass.1 (by omega)
        have hwlen' := congrArg List.length hwtake
        rw [List.length_take] at hwlen'
        rw [hcopy hpass.2 (by omega), hwtake, List.append_assoc, List.take_append_drop]
    · rw [if_neg hroom]
      refine ⟨by omega, fun heq => ?_, fun _ hfits => ?_⟩
      · rw [List.length_cons] at heq
        omega
      · rw [List.length_cons] at hfits
        omega

/-! ## Readable pieces -/

/-- What a piece needs to be decoded to its bytes: its string is no `<0xHH>`, does not lose a leading
space to BOS, has at most 511 bytes to write, and, where it is a special token, holds no two-byte
character of the byte table. -/
structure Piece.Readable (t : Tokenizer) (prev : Int) (p : Piece) : Prop where
  noByteToken : isByteToken (t.str p.token) = false
  keepsSpace : ¬ t.StripsSpace prev (t.str p.token)
  fits : p.bytes.length ≤ 511
  passes : p.special = true → passesThrough p.bytes.length p.bytes = true

theorem stripSpace_of_not {prev : Int} {piece : List UInt8} (h : ¬ t.StripsSpace prev piece) : t.stripSpace prev piece = piece := by
  unfold StripsSpace at h
  unfold stripSpace
  split
  · next hprev =>
    rw [and_iff_right hprev, not_or] at h
    rw [if_neg h.1, if_neg h.2]
  · rfl

theorem getD_zero_append {l : List UInt8} (h : 1 ≤ l.length) (s : List UInt8) : (l ++ s).getD 0 0 = l.getD 0 0 := by
  rw [List.getD_eq_getElem?_getD, List.getElem?_append_left h, List.getD_eq_getElem?_getD]

theorem byteUnicode_no_space (c : UInt8) :
    (byteUnicode c).getD 0 0 ≠ 32 ∧ ((byteUnicode c).getD 0 0 = 0xc4 → (byteUnicode c).length = 2) := by
  have htable : ∀ s ∈ byteUnicodeTable, s.getD 0 0 ≠ 32 ∧ (s.getD 0 0 = 0xc4 → s.length = 2) := by decide +kernel
  exact htable _ (List.fst_mem_of_mem_zipIdx (byteUnicode_mem c))

/-- What is left of a piece that loses its space is shorter than the piece. -/
theorem length_decode_stripped {prev : Int} {p : Piece} (hp : p.Spells t) (h : t.StripsSpace prev (t.str p.token)) :
    (bpeBytesDecode (t.stripSpace prev (t.str p.token)) 512).length < p.bytes.length := by
  obtain ⟨hprev, hspace⟩ := h
  unfold bpeBytesDecode
  cases hs : p.special with
  | true =>
    rw [hp.str_special hs] at hspace ⊢
    have hlen := (@bpeDecodeLoop_spec 512 (t.stripSpace prev p.bytes).length (t.stripSpace prev p.bytes) [] (Nat.le_refl _)).1
    have hpos : 0 < p.bytes.length := List.length_pos_iff.2 hp.ne_nil
    have hshort : (t.stripSpace prev p.bytes).length < p.bytes.length := by
      unfold stripSpace
      rw [if_pos hprev]
      split
      · rw [List.length_drop]
        omega
      · next hno =>
        rw [if_pos (hspace.resolve_left hno), List.length_drop]
        omega
    rw [List.length_nil] at hlen
    omega
  | false =>
    rw [hp.str_plain hs] at hspace ⊢
    obtain ⟨c, bytes, hbytes⟩ := List.exists_cons_of_ne_nil hp.ne_nil
    rw [hbytes, List.flatMap_cons] at hspace ⊢
    obtain ⟨hno, htwo⟩ := byteUnicode_no_space c
    rw [getD_zero_append (length_byteUnicode c).1] at hspace
    -- only the character of the space starts so
    have hg := hspace.resolve_right hno
    have hstrip : t.stripSpace prev (byteUnicode c ++ bytes.flatMap byteUnicode) = bytes.flatMap byteUnicode := by
      unfold stripSpace
      rw [if_pos hprev, getD_zero_append (length_byteUnicode c).1, if_pos hg, ← htwo hg.1, List.drop_left]
    rw [hstrip, bpeDecodeLoop_plain (Nat.le_refl _), List.nil_append, List.length_take, List.length_cons]
    omega

/-- A string of at least six bytes stands for more than one byte of the text. -/
theorem one_lt_of_isByteToken {p : Piece} (hp : p.Spells t) (h : isByteToken (t.str p.token) = true) : 1 < p.bytes.length := by
  have hsix : 6 ≤ (t.str p.token).length := by
    unfold isByteToken at h
    simp only [Bool.and_eq_true, decide_eq_true_eq] at h
    exact h.1.1.1.1
  cases hs : p.special with
  | true =>
    rw [hp.str_special hs] at hsix
    omega
  | false =>
    rw [hp.str_plain hs] at hsix
    by_contra hle
    obtain ⟨c, bytes, hbytes⟩ := List.exists_cons_of_ne_nil hp.ne_nil
    have hnil : bytes = [] := List.length_eq_zero_iff.1 (by rw [hbytes, List.length_cons] at hle; omega)
    rw [hbytes, hnil, List.flatMap_singleton] at hsix
    have := (length_byteUnicode c).2
    omega

/-- A token is decoded to at most as many bytes as its piece has, to as many only if the piece is
readable, and then to the piece. -/
theorem decode_piece {prev : Int} {p : Piece} (hp : p.Spells t) (hnul : 0 ∉ p.bytes) :
    (t.decode prev p.token).length ≤ p.bytes.length ∧
    ((t.decode prev p.token).length = p.bytes.length → p.Readable t prev) ∧
    (p.Readable t prev → t.decode prev p.token = p.bytes) := by
  have hvalid : ¬ ((p.token : Int) < 0 ∨ (t.vocabSize : Int) ≤ p.token) := by
    have := hp.lt
    omega
  unfold decode
  rw [if_neg hvalid, Int.toNat_natCast]
  dsimp only
  cases htok : isByteToken (t.str p.token) with
  | true =>
    have hmany := one_lt_of_isByteToken hp htok
    have hone := length_untilNul_le [byteVal (t.str p.token)]
    rw [List.length_singleton] at hone
    rw [if_pos rfl]
    refine ⟨by omega, fun heq => by omega, fun h => ?_⟩
    rw [h.noByteToken] at htok
    cases htok
  | false =>
    rw [if_neg Bool.false_ne_true]
    have hcut := length_untilNul_le (bpeBytesDecode (t.stripSpace prev (t.str p.token)) 512)
    by_cases hstrip : t.StripsSpace prev (t.str p.token)
    · have hshort := length_decode_stripped hp hstrip
      exact ⟨by omega, fun heq => by omega, fun h => absurd hstrip h.keepsSpace⟩
    · rw [stripSpace_of_not hstrip] at hcut ⊢
      cases hs : p.special with
      | true =>
        rw [hp.str_special hs] at hcut htok hstrip ⊢
        obtain ⟨hle, hfull, hcopy⟩ := @bpeDecodeLoop_spec 512 p.bytes.length p.bytes [] (Nat.le_refl _)
        rw [List.length_nil, Nat.zero_add] at hle hfull hcopy
        unfold bpeBytesDecode at hcut ⊢
        refine ⟨by omega, fun heq => ?_, fun h => ?_⟩
        · obtain ⟨hpass, hfits⟩ := hfull (by omega)
          refine ⟨by rw [hp.str_special hs, htok], by rwa [hp.str_special hs], ?_, fun _ => hpass⟩
          have := hfits.resolve_left hp.ne_nil
          omega
        · have hfits := h.fits
          rw [hcopy (h.passes hs) (by omega), List.nil_append, untilNul_of_noNul hnul]
      | false =>
        have hplain : bpeBytesDecode (t.str p.token) 512 = p.bytes.take 511 := by
          rw [hp.str_plain hs]
          exact (bpeDecodeLoop_plain (Nat.le_refl _)).trans (List.nil_append _)
        rw [hplain, untilNul_of_noNul fun h0 => hnul (List.mem_of_mem_take h0), List.length_take]
        refine ⟨Nat.min_le_right .., fun heq => ⟨htok, hstrip, by omega, fun hspecial => ?_⟩, fun h => ?_⟩
        · rw [hs] at hspecial
          cases hspecial
        · exact List.take_of_length_le h.fits

/-! ## The round trip -/

/-- Every piece is readable after the token before it. -/
def AllReadable (t : Tokenizer) : Int → List Piece → Prop
  | _, [] => True
  | prev, p :: pieces => p.Readable t prev ∧ AllReadable t p.token pieces

theorem decodeAll_pieces : ∀ {prev : Int} {pieces : List Piece}, (∀ p ∈ pieces, p.Spells t ∧ 0 ∉ p.bytes) →
    (t.decodeAll prev (pieces.map Piece.token)).length ≤ (pieces.flatMap Piece.bytes).length ∧
    ((t.decodeAll prev (pieces.map Piece.token)).length = (pieces.flatMap Piece.bytes).length → AllReadable t prev pieces) ∧
    (AllReadable t prev pieces → t.decodeAll prev (pieces.map Piece.token) = pieces.flatMap Piece.bytes)
  | prev, [], _ => ⟨Nat.le_refl _, fun _ => trivial, fun _ => rfl⟩
  | prev, p :: pieces, h => by
    obtain ⟨hp, hnul⟩ := h p List.mem_cons_self
    obtain ⟨hle, hfull, hread⟩ := @decode_piece t prev p hp hnul
    obtain ⟨hleRest, hfullRest, hreadRest⟩ := @decodeAll_pieces p.token pieces fun q hq => h q (List.mem_cons_of_mem _ hq)
    rw [List.map_cons, decodeAll, List.flatMap_cons, List.length_append, List.length_append]
    refine ⟨by omega, fun heq => ⟨hfull (by omega), hfullRest (by omega)⟩, fun hall => ?_⟩
    rw [hread hall.1, hreadRest hall.2]

/-- For every tokenizer with a token for each byte and every text without NUL that is encoded: the tokens
spell the text in pieces, and decoding them gives the text back exactly if every piece is readable. -/
theorem round_trip_iff {t : Tokenizer} (hbytes : HasBytes t) {text : List UInt8} (hnul : 0 ∉ text) {maxTokens : Int}
    {tokens : List Nat} (henc : t.encode text maxTokens = some tokens) :
    (∃ pieces, Splits t text tokens pieces) ∧
    ∀ pieces, Splits t text tokens pieces → (t.decodeAll (-1) tokens = text ↔ AllReadable t (-1) pieces) := by
  refine ⟨encode_splits hbytes henc, fun pieces h => ?_⟩
  have hpieces : ∀ p ∈ pieces, p.Spells t ∧ 0 ∉ p.bytes := by
    refine fun p hp => ⟨h.spells p hp, fun h0 => hnul ?_⟩
    rw [← h.text_eq]
    exact List.mem_flatMap.2 ⟨p, hp, h0⟩
  obtain ⟨-, hfull, hread⟩ := @decodeAll_pieces t (-1) pieces hpieces
  rw [← h.tokens_eq, h.text_eq] at hfull hread
  exact ⟨fun heq => hfull (by rw [heq]), hread⟩

/-- The characters of the bytes and some tokens of given types behind them. -/
def charVocabularyWith (words : List (List UInt8 × Nat)) : GGUFTokenizerMeta :=
  { model := some (ascii "gpt2")
    tokens := some (.strings (byteUnicodeTable ++ words.map Prod.fst))
    scores := none
    merges := none
    bosTokenId := none
    tokenType := some (.int32 (List.replicate 256 1 ++ words.map Prod.snd)) }

/-- The characters of the bytes and a user defined token. -/
def charVocabulary (token : List UInt8) : GGUFTokenizerMeta := charVocabularyWith [(token, 4)]

theorem byteUnicodeTable_noNul : ∀ s ∈ byteUnicodeTable, 0 ∉ s := by decide +kernel

theorem byteUnicodeTable_append_ne_nil (words : List (List UInt8)) : byteUnicodeTable ++ words ≠ [] := by
  rw [Ne, List.append_eq_nil_iff, not_and]
  exact fun h => absurd h (by decide)

theorem charVocabularyWith_loaded {words : List (List UInt8 × Nat)} {t : Tokenizer}
    (h : tokenizerLoadFromGguf (charVocabularyWith words) = some t) (hfew : words.length < 2 ^ 30) :
    t.vocabSize = 256 + words.length ∧ t.bosTokenId = -1 ∧
      ∀ i, t.str i = (((byteUnicodeTable ++ words.map Prod.fst)[i]?).map untilNul).getD [] := by
  unfold tokenizerLoadFromGguf charVocabularyWith at h
  dsimp only at h
  rw [if_neg (byteUnicodeTable_append_ne_nil _)] at h
  cases h
  refine ⟨?_, rfl, fun i => ?_⟩
  · dsimp only
    rw [List.length_map, List.length_append, List.length_map, length_byteUnicodeTable]
    unfold toInt32
    rw [if_pos (by omega)]
    omega
  · unfold str
    dsimp only
    rw [List.getD_eq_getElem?_getD, List.getElem?_map]

theorem hasBytes_charVocabularyWith {words : List (List UInt8 × Nat)} {t : Tokenizer}
    (h : tokenizerLoadFromGguf (charVocabularyWith words) = some t) (hfew : words.length < 2 ^ 30) : HasBytes t := by
  intro c
  have hc : c.toNat < byteUnicodeTable.length := by
    rw [length_byteUnicodeTable]
    exact c.toNat_lt
  obtain ⟨hsize, -, hstr⟩ := charVocabularyWith_loaded h hfew
  refine ⟨c.toNat, ?_, ?_⟩
  · rw [hsize]
    exact c.toNat_lt.trans_le (Nat.le_add_right _ _)
  · unfold byteUnicode
    rw [hstr, List.getElem?_append_left hc, List.getD_eq_getElem?_getD, List.getElem?_eq_getElem hc, Option.map_some,
      Option.getD_some, Option.getD_some]
    exact untilNul_of_noNul (byteUnicodeTable_noNul _ (List.getElem_mem hc))

theorem charVocabularyWith_word {words : List (List UInt8 × Nat)} {t : Tokenizer}
    (h : tokenizerLoadFromGguf (charVocabularyWith words) = some t) (hfew : words.length < 2 ^ 30) {i : Nat}
    {word : List UInt8} (hword : (words.map Prod.fst)[i]? = some word) (hnul : 0 ∉ word) : t.str (256 + i) = word := by
  rw [(charVocabularyWith_loaded h hfew).2.2, List.getElem?_append_right (by rw [length_byteUnicodeTable]; omega),
    length_byteUnicodeTable, Nat.add_sub_cancel_left, hword, Option.map_some, Option.getD_some, untilNul_of_noNul hnul]

theorem hasBytes_charVocabulary {token : List UInt8} {t : Tokenizer} (h : tokenizerLoadFromGguf (charVocabulary token) = some t) :
    HasBytes t :=
  hasBytes_charVocabularyWith h (by norm_num)

theorem charVocabulary_token {token : List UInt8} (hnul : 0 ∉ token) {t : Tokenizer}
    (h : tokenizerLoadFromGguf (charVocabulary token) = some t) :
    t.vocabSize = 257 ∧ t.str 256 = token ∧ t.bosTokenId = -1 := by
  obtain ⟨hsize, hbos, -⟩ := charVocabularyWith_loaded h (by norm_num)
  exact ⟨hsize, charVocabularyWith_word (i := 0) h (by norm_num) rfl hnul, hbos⟩

/-- Without merges all scores are zero. -/
theorem charVocabularyWith_score {words : List (List UInt8 × Nat)} {t : Tokenizer}
    (h : tokenizerLoadFromGguf (charVocabularyWith words) = some t) (id : Nat) : t.score id = 0 := by
  unfold tokenizerLoadFromGguf charVocabularyWith at h
  dsimp only at h
  rw [if_neg (byteUnicodeTable_append_ne_nil _)] at h
  cases h
  unfold score
  rw [if_pos (by decide)]
  dsimp only [bpeScores, zeroScores]
  rw [List.getD_eq_getElem?_getD, List.getElem?_replicate]
  split <;> rfl

/-- The index finds a string that stands only once in the vocabulary. -/
theorem charVocabularyWith_lookup {words : List (List UInt8 × Nat)} {t : Tokenizer}
    (h : tokenizerLoadFromGguf (charVocabularyWith words) = some t) (hfew : words.length < 2 ^ 30) {s : List UInt8} {id : Nat}
    (hid : id < 256 + words.length)
    (hunique : ∀ p ∈ (byteUnicodeTable ++ words.map Prod.fst).zipIdx, untilNul p.1 = s ↔ p.2 = id) : t.lookup s = some id := by
  obtain ⟨hsize, -, hstr⟩ := charVocabularyWith_loaded h hfew
  have hiff : ∀ i < 256 + words.length, t.str i = s ↔ i = id := by
    intro i hi
    have hlt : i < (byteUnicodeTable ++ words.map Prod.fst).length := by
      rwa [List.length_append, length_byteUnicodeTable, List.length_map]
    rw [hstr, List.getElem?_eq_getElem hlt]
    exact hunique (_, i) (List.mk_mem_zipIdx_iff_getElem?.2 (List.getElem?_eq_getElem hlt))
  cases hlookup : t.lookup s with
  | none => exact absurd ((hiff id hid).2 rfl) (lookup_none t hlookup (hsize ▸ hid))
  | some i =>
    obtain ⟨hi, heq⟩ := lookup_some t hlookup
    rw [(hiff i (hsize ▸ hi)).1 heq]

theorem charVocabularyWith_byteToken {words : List (List UInt8 × Nat)} {t : Tokenizer}
    (h : tokenizerLoadFromGguf (charVocabularyWith words) = some t) (hfew : words.length < 2 ^ 30) {c : UInt8}
    (hunique : ∀ p ∈ (byteUnicodeTable ++ words.map Prod.fst).zipIdx, untilNul p.1 = byteUnicode c ↔ p.2 = c.toNat) :
    t.byteToken c = c.toNat := by
  rw [byteToken, charVocabularyWith_lookup h hfew (c.toNat_lt.trans_le (Nat.le_add_right _ _)) hunique]

/-- A segment of one byte is one token. -/
theorem encodeSegment_single {t : Tokenizer} {c : UInt8} {n : Nat} (hn : 0 < n) :
    t.encodeSegment [c] n = some [t.byteToken c] := by
  unfold encodeSegment
  rw [initialTokens, if_neg (by omega), initialTokens]
  rfl

/-- Two bytes whose tokens merge. -/
theorem encodeSegment_pair {t : Tokenizer} {c d : UInt8} {id n : Nat} (hn : 1 < n)
    (hmerge : t.mergedToken (t.byteToken c) (t.byteToken d) = some id) (hgt : Single.gt (t.score id) lowestScore = true) :
    t.encodeSegment [c, d] n = some [id] := by
  have hinitial : t.initialTokens n 0 [c, d] = some [t.byteToken c, t.byteToken d] := by
    rw [initialTokens, if_neg (by omega), initialTokens, if_neg (by omega), initialTokens]
    rfl
  have hbest : t.bestPair [t.byteToken c, t.byteToken d] = some (0, id) := by
    unfold bestPair
    rw [scanPairs, Best.consider, hmerge]
    dsimp only
    rw [if_pos hgt]
    rfl
  unfold encodeSegment
  rw [hinitial, Option.map_some, List.length_cons, mergeLoop, hbest]
  rfl

/-- A special token in front. -/
theorem encodeLoop_special {t : Tokenizer} {maxTokens fuel len id : Nat} {c : UInt8} {s : List UInt8} {tokens : List Nat}
    (hmatch : t.matchSpecialToken (c :: s) = some (len, id)) (hroom : tokens.length < maxTokens) :
    t.encodeLoop maxTokens (fuel + 1) (c :: s) tokens = t.encodeLoop maxTokens fuel ((c :: s).drop len) (tokens ++ [id]) := by
  rw [encodeLoop, hmatch]
  exact if_neg (by omega)

/-- A stretch of plain text in front. -/
theorem encodeLoop_plain {t : Tokenizer} {maxTokens fuel n : Nat} {c : UInt8} {s : List UInt8} {tokens segment : List Nat}
    (hmatch : t.matchSpecialToken (c :: s) = none) (hplain : t.plainLength (c :: s) = n)
    (hsegment : t.encodeSegment ((c :: s).take n) (maxTokens - tokens.length) = some segment) :
    t.encodeLoop maxTokens (fuel + 1) (c :: s) tokens = t.encodeLoop maxTokens fuel ((c :: s).drop n) (tokens ++ segment) := by
  subst hplain
  rw [encodeLoop, hmatch]
  dsimp only
  rw [hsegment]

theorem round_trip_iff_end : ∃ t, tokenizerLoadFromGguf (charVocabularyWith [(ascii "<end>", 4), (ascii "ab", 1)]) = some t ∧
    t.encode (ascii "ab<end>c") 16 = some [257, 256, 99] ∧ t.decodeAll (-1) [257, 256, 99] = ascii "ab<end>c" := by
  obtain ⟨t, ht⟩ : ∃ t, tokenizerLoadFromGguf (charVocabularyWith [(ascii "<end>", 4), (ascii "ab", 1)]) = some t := ⟨_, rfl⟩
  obtain ⟨hsize, hbos, hstr⟩ := charVocabularyWith_loaded ht (by decide)
  have hend : t.str 256 = ascii "<end>" := charVocabularyWith_word (i := 0) ht (by decide) rfl (by decide)
  have hab : t.str 257 = ascii "ab" := charVocabularyWith_word (i := 1) ht (by decide) rfl (by decide)
  have hletters : t.str 97 = ascii "a" ∧ t.str 98 = ascii "b" ∧ t.str 99 = ascii "c" := by
    rw [hstr, hstr, hstr]
    decide +kernel
  have hletter : ∀ c ∈ ascii "abc", t.byteToken c = c.toNat := by
    intro c hc
    refine charVocabularyWith_byteToken ht (by decide) ?_
    revert c
    decide +kernel
  have hmerge : t.mergedToken 97 98 = some 257 := by
    have hroom : ¬ t.mergeBound < t.mergeLen 97 98 := by
      cases ht
      decide +kernel
    rw [mergedToken, if_neg hroom, hletters.1, hletters.2.1]
    exact charVocabularyWith_lookup ht (by decide) (by decide) (by decide +kernel)
  have hgt : Single.gt (t.score 257) lowestScore = true := by
    rw [charVocabularyWith_score ht]
    decide
  have hcheck : t.injectionCheck (ascii "ab<end>c").length (ascii "ab<end>c") = true := rfl
  have hmatch : ∀ s, t.matchSpecialToken s = longerSpecial s none (ascii "<end>", 256) := by
    have hspecials : t.specialTokens = [(ascii "<end>", 256)] := by
      cases ht
      decide +kernel
    intro s
    rw [matchSpecialToken, hspecials, if_pos (List.cons_ne_nil _ _)]
    rfl
  have hmatchText : t.matchSpecialToken (ascii "ab<end>c") = none := by
    rw [hmatch]
    decide
  have hmatchEnd : t.matchSpecialToken (ascii "<end>c") = some (5, 256) := by
    rw [hmatch]
    decide
  have hmatchLetter : t.matchSpecialToken (ascii "c") = none := by
    rw [hmatch]
    decide
  have hplainText : t.plainLength (ascii "ab<end>c") = 2 := by
    rw [show ascii "ab<end>c" = 97 :: 98 :: 60 :: ascii "end>c" from by decide, plainLength, plainLength, plainLength,
      hmatch, hmatch, hmatch, if_neg (by decide), if_neg (by decide), if_pos (by decide)]
  have hplainLetter : t.plainLength (ascii "c") = 1 := by
    rw [show ascii "c" = [99] from by decide, plainLength, hmatch, if_neg (by decide)]
    rfl
  have henc : t.encode (ascii "ab<end>c") 16 = some [257, 256, 99] := by
    have hsegment : t.encodeSegment (ascii "ab") 16 = some [257] := by
      rw [show ascii "ab" = [97, 98] from by decide]
      refine encodeSegment_pair (by decide) ?_ hgt
      rw [hletter 97 (by decide), hletter 98 (by decide)]
      exact hmerge
    have hlast : t.encodeSegment (ascii "c") 14 = some [99] := by
      rw [show ascii "c" = [99] from by decide, encodeSegment_single (by decide), hletter 99 (by decide)]
      rfl
    have htext : ascii "ab<end>c" = 97 :: ascii "b<end>c" := by decide
    have hspecial : ascii "<end>c" = 60 :: ascii "end>c" := by decide
    have htail : ascii "c" = [99] := by decide
    unfold encode
    rw [if_neg (by decide), if_pos hcheck]
    rw [htail] at hmatchLetter hplainLetter hlast
    rw [hspecial] at hmatchEnd
    calc t.encodeLoop 16 8 (ascii "ab<end>c") []
        = t.encodeLoop 16 7 (60 :: ascii "end>c") [257] := by
          rw [htext] at hmatchText hplainText ⊢
          exact encodeLoop_plain hmatchText hplainText hsegment
      _ = t.encodeLoop 16 6 [99] [257, 256] := encodeLoop_special hmatchEnd (by decide)
      _ = t.encodeLoop 16 5 [] [257, 256, 99] := encodeLoop_plain hmatchLetter hplainLetter hlast
      _ = some [257, 256, 99] := by rw [encodeLoop]
  let special : Piece := ⟨256, ascii "<end>", true⟩
  let merged : Piece := ⟨257, ascii "ab", false⟩
  let letter : Piece := ⟨99, ascii "c", false⟩
  have hspecial : special.Spells t := ⟨by rw [hsize]; decide, by decide, fun _ => hend, nofun⟩
  have hmerged : merged.Spells t := ⟨by rw [hsize]; decide, by decide, nofun, fun _ => by rw [hab]; decide +kernel⟩
  have hlast : letter.Spells t := ⟨by rw [hsize]; decide, by decide, nofun, fun _ => by rw [hletters.2.2]; decide +kernel⟩
  have hsplits : Splits t (ascii "ab<end>c") [257, 256, 99] [merged, special, letter] :=
    ⟨rfl, by decide, by simp [hspecial, hmerged, hlast]⟩
  have hkeeps (prev : Int) (piece : List UInt8) : ¬ t.StripsSpace prev piece := fun h => absurd (hbos ▸ h.1.1) (by decide)
  have hreadSpecial (prev : Int) : special.Readable t prev :=
    ⟨by rw [hend]; decide, hkeeps prev _, by decide, fun _ => by decide⟩
  have hreadMerged (prev : Int) : merged.Readable t prev := ⟨by rw [hab]; decide, hkeeps prev _, by decide, nofun⟩
  have hreadLetter (prev : Int) : letter.Readable t prev := ⟨by rw [hletters.2.2]; decide, hkeeps prev _, by decide, nofun⟩
  exact ⟨t, ht, henc, ((round_trip_iff (hasBytes_charVocabularyWith ht (by decide)) (by decide) henc).2 _ hsplits).2
    ⟨hreadMerged _, hreadSpecial _, hreadLetter _, trivial⟩⟩

theorem flatMap_replicate_letter (n : Nat) : (List.replicate n 97).flatMap byteUnicode = List.replicate n 97 := by
  induction n with
  | zero => rfl
  | succ n ih =>
    rw [List.replicate_succ, List.flatMap_cons, ih]
    rfl

/-- Of a token of 512 letters the decoder writes 511. -/
theorem long_token_cut : ∃ t, tokenizerLoadFromGguf (charVocabulary (List.replicate 512 97)) = some t ∧ HasBytes t ∧
    t.encode (List.replicate 512 97) 8 = some [256] ∧ t.decodeAll (-1) [256] = List.replicate 511 97 := by
  obtain ⟨t, ht⟩ : ∃ t, tokenizerLoadFromGguf (charVocabulary (List.replicate 512 97)) = some t := ⟨_, rfl⟩
  have hnul : (0 : UInt8) ∉ List.replicate 512 97 := fun h => absurd (List.eq_of_mem_replicate h) (by decide)
  obtain ⟨hsize, hstr, hbos⟩ := charVocabulary_token hnul ht
  refine ⟨t, ht, hasBytes_charVocabulary ht, ?_, ?_⟩
  · cases ht
    decide +kernel
  · have hpiece : t.str (256 : Nat) = (List.replicate 512 97).flatMap byteUnicode := hstr.trans (flatMap_replicate_letter 512).symm
    have hnotByte : isByteToken (List.replicate 512 97) = false := by decide +kernel
    have hstrip : t.stripSpace (-1) (t.str (256 : Nat)) = t.str (256 : Nat) :=
      stripSpace_of_not fun h => absurd (hbos ▸ h.1.1) (by decide)
    rw [decodeAll, decodeAll, List.append_nil]
    unfold decode
    rw [if_neg (by rw [hsize]; decide), show ((256 : Nat) : Int).toNat = 256 from rfl]
    dsimp only
    rw [hstrip, hstr, hnotByte, if_neg Bool.false_ne_true, ← hstr, hpiece]
    unfold bpeBytesDecode
    rw [bpeDecodeLoop_plain (Nat.le_refl _), List.nil_append, List.take_replicate]
    exact untilNul_of_noNul fun h => absurd (List.eq_of_mem_replicate h) (by decide)

end BitForge.Tokenizer
