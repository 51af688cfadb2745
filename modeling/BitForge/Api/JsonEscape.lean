/-
The string escaping of `api/sse_stream.c` and its inverse, the string parser of the server.
-/
import BitForge.Api.JsonText

namespace BitForge.Api

open BitForge.Lib

/-- The digit that `%x` prints. -/
def hexDigit (n : Nat) : UInt8 := if n % 16 < 10 then (0x30 + n % 16).toUInt8 else (0x57 + n % 16).toUInt8

/-- `sprintf(dst, "\\u%04x", c)` -/
def controlEscape (c : UInt8) : List UInt8 :=
  [backslash, 0x75, hexDigit (c.toNat / 4096), hexDigit (c.toNat / 256), hexDigit (c.toNat / 16), hexDigit c.toNat]

def jsonEscapeByte (c : UInt8) : List UInt8 :=
  if c = quote then [backslash, quote]
  else if c = backslash then [backslash, backslash]
  else if c = 0x0A then [backslash, 0x6E]
  else if c = 0x0D then [backslash, 0x72]
  else if c = 0x09 then [backslash, 0x74]
  else if c < 0x20 then controlEscape c
  else [c]

/-- `json_escape`, on the bytes before the NUL. -/
def jsonEscape (src : List UInt8) : List UInt8 := src.flatMap jsonEscapeByte

/-! ## What is a string body -/

/-- A character of a JSON string, RFC 8259, section 7. -/
inductive JsonChar
  | unescaped (c : Char) (h : 0x20 ≤ c.val ∧ c ≠ '"' ∧ c ≠ '\\')
  | escaped (c : UInt8) (h : c ∈ ascii "\"\\/bfnrt")
  | unicode (digits : List UInt8) (hlen : digits.length = 4) (h : ∀ c ∈ digits, c ∈ ascii "0123456789abcdefABCDEF")

def JsonChar.text : JsonChar → List UInt8
  | unescaped c _ => String.utf8EncodeChar c
  | escaped c _ => [backslash, c]
  | unicode digits _ _ => backslash :: 0x75 :: digits

/-- The bytes are the body of a JSON string. -/
def IsStringBody (bytes : List UInt8) : Prop := ∃ chars : List JsonChar, bytes = chars.flatMap JsonChar.text

/-- The bytes are the encoding of a text. -/
def IsUtf8 (bytes : List UInt8) : Prop := ∃ chars : List Char, bytes = chars.flatMap String.utf8EncodeChar

/-! ## Escaped texts are string bodies -/

theorem utf8EncodeChar_ascii {c : Char} (h : c.val.toNat ≤ 0x7F) : String.utf8EncodeChar c = [c.val.toNat.toUInt8] := by
  unfold String.utf8EncodeChar
  exact if_pos h

theorem utf8EncodeChar_high {c : Char} (h : ¬ c.val.toNat ≤ 0x7F) : ∀ b ∈ String.utf8EncodeChar c, 0x80 ≤ b := by
  have hofNat : ∀ n, 0x80 ≤ n → n < 256 → (0x80 : UInt8) ≤ UInt8.ofNat n := by
    intro n hle hlt
    rw [UInt8.le_iff_toNat_le, UInt8.toNat_ofNat_of_lt' hlt]
    exact hle
  unfold String.utf8EncodeChar
  dsimp only
  rw [if_neg h]
  intro b hb
  split at hb
  · simp only [List.mem_cons, List.not_mem_nil, or_false] at hb
    rcases hb with rfl | rfl
    · exact hofNat _ (by omega) (by omega)
    · exact hofNat _ (by omega) (by omega)
  split at hb
  · simp only [List.mem_cons, List.not_mem_nil, or_false] at hb
    rcases hb with rfl | rfl | rfl
    · exact hofNat _ (by omega) (by omega)
    · exact hofNat _ (by omega) (by omega)
    · exact hofNat _ (by omega) (by omega)
  · simp only [List.mem_cons, List.not_mem_nil, or_false] at hb
    rcases hb with rfl | rfl | rfl | rfl
    · exact hofNat _ (by omega) (by omega)
    · exact hofNat _ (by omega) (by omega)
    · exact hofNat _ (by omega) (by omega)
    · exact hofNat _ (by omega) (by omega)

/-- The control characters with an escape of their own. -/
def HasShortEscape (c : UInt8) : Prop := c = 0x0A ∨ c = 0x0D ∨ c = 0x09

instance : DecidablePred HasShortEscape := fun c => inferInstanceAs (Decidable (c = 0x0A ∨ c = 0x0D ∨ c = 0x09))

/-- How a byte is escaped: by one character, by four digits, or not at all. -/
theorem jsonEscapeByte_cases (c : UInt8) :
    (∃ d ∈ ascii "\"\\/bfnrt", jsonEscapeByte c = [backslash, d] ∧ unescape d = c ∧ (0x20 ≤ c ∨ HasShortEscape c)) ∨
      (jsonEscapeByte c = controlEscape c ∧ c < 0x20 ∧ ¬ HasShortEscape c) ∨
      (jsonEscapeByte c = [c] ∧ 0x20 ≤ c ∧ c ≠ quote ∧ c ≠ backslash) := by
  unfold jsonEscapeByte
  by_cases hq : c = quote
  · subst hq
    exact .inl ⟨quote, by decide, rfl, rfl, by decide⟩
  by_cases hb : c = backslash
  · subst hb
    exact .inl ⟨backslash, by decide, rfl, rfl, by decide⟩
  by_cases hn : c = 0x0A
  · subst hn
    exact .inl ⟨0x6E, by decide, rfl, rfl, by decide⟩
  by_cases hr : c = 0x0D
  · subst hr
    exact .inl ⟨0x72, by decide, rfl, rfl, by decide⟩
  by_cases ht : c = 0x09
  · subst ht
    exact .inl ⟨0x74, by decide, rfl, rfl, by decide⟩
  rw [if_neg hq, if_neg hb, if_neg hn, if_neg hr, if_neg ht]
  by_cases hlow : c < 0x20
  · rw [if_pos hlow]
    exact .inr (.inl ⟨rfl, hlow, by rintro (h | h | h) <;> contradiction⟩)
  · rw [if_neg hlow]
    exact .inr (.inr ⟨rfl, UInt8.not_lt.1 hlow, hq, hb⟩)

theorem hexDigit_mem (n : Nat) : hexDigit n ∈ ascii "0123456789abcdefABCDEF" := by
  have hmod : hexDigit n = hexDigit (n % 16) := by
    unfold hexDigit
    rw [Nat.mod_mod]
  have hall : ∀ k < 16, hexDigit k ∈ ascii "0123456789abcdefABCDEF" := by decide
  rw [hmod]
  exact hall _ (Nat.mod_lt _ (by decide))

theorem hexDigit_plain (n : Nat) : PlainByte (hexDigit n) := by
  have hall : ∀ c ∈ ascii "0123456789abcdefABCDEF", c ≠ 0 ∧ c ≠ quote ∧ c ≠ backslash := by decide +kernel
  exact hall _ (hexDigit_mem n)

theorem controlEscape_char (c : UInt8) : ∃ char : JsonChar, char.text = controlEscape c := by
  refine ⟨.unicode _ rfl ?_, rfl⟩
  simp only [List.mem_cons, List.not_mem_nil, or_false]
  rintro d (rfl | rfl | rfl | rfl) <;> exact hexDigit_mem _

/-- The escape of an encoded character is one character of a string. -/
theorem jsonEscape_char (c : Char) : ∃ char : JsonChar, char.text = jsonEscape (String.utf8EncodeChar c) := by
  by_cases hascii : c.val.toNat ≤ 0x7F
  · rw [utf8EncodeChar_ascii hascii]
    change ∃ char : JsonChar, char.text = jsonEscapeByte c.val.toNat.toUInt8 ++ []
    rw [List.append_nil]
    rcases jsonEscapeByte_cases c.val.toNat.toUInt8 with ⟨d, hd, heq, -, -⟩ | ⟨heq, -, -⟩ | ⟨heq, hlow, hq, hb⟩
    · exact ⟨.escaped d hd, heq.symm⟩
    · rw [heq]
      exact controlEscape_char _
    · refine ⟨.unescaped c ⟨?_, ?_, ?_⟩, ?_⟩
      · rw [UInt8.le_iff_toNat_le, Nat.toUInt8, UInt8.toNat_ofNat_of_lt' (by change _ < 256; omega)] at hlow
        exact UInt32.le_iff_toNat_le.2 hlow
      · rintro rfl
        exact hq (by decide)
      · rintro rfl
        exact hb (by decide)
      · rw [heq]
        exact utf8EncodeChar_ascii hascii
  · have hhigh := utf8EncodeChar_high hascii
    have hsame : ∀ l : List UInt8, (∀ b ∈ l, 0x80 ≤ b) → jsonEscape l = l := by
      intro l
      induction l with
      | nil => exact fun _ => rfl
      | cons b l ih =>
        intro h
        have hplain : jsonEscapeByte b = [b] := by
          have hb := h b List.mem_cons_self
          revert hb
          exact uint8_forall (P := fun b => 0x80 ≤ b → jsonEscapeByte b = [b]) (by decide +kernel) b
        change jsonEscapeByte b ++ jsonEscape l = b :: l
        rw [hplain, ih fun d hd => h d (List.mem_cons_of_mem _ hd)]
        rfl
    refine ⟨.unescaped c ⟨?_, ?_, ?_⟩, (hsame _ hhigh).symm⟩
    · rw [UInt32.le_iff_toNat_le]
      change 32 ≤ c.val.toNat
      omega
    · rintro rfl
      exact hascii (by decide)
    · rintro rfl
      exact hascii (by decide)

theorem jsonEscape_append (a b : List UInt8) : jsonEscape (a ++ b) = jsonEscape a ++ jsonEscape b := List.flatMap_append

/-- An escaped text is the body of a JSON string. -/
theorem jsonEscape_isStringBody {s : List UInt8} (h : IsUtf8 s) : IsStringBody (jsonEscape s) := by
  obtain ⟨chars, rfl⟩ := h
  induction chars with
  | nil => exact ⟨[], rfl⟩
  | cons c chars ih =>
    obtain ⟨char, hchar⟩ := jsonEscape_char c
    obtain ⟨body, hbody⟩ := ih
    refine ⟨char :: body, ?_⟩
    rw [List.flatMap_cons, jsonEscape_append, hbody, List.flatMap_cons, hchar]

/-! ## Decoding an escaped text -/

/-- What `parse_string` makes of an escaped byte. -/
def readBack (c : UInt8) : UInt8 := if c < 0x20 ∧ ¬ HasShortEscape c then 0x3F else c

theorem readBack_eq_iff (c : UInt8) : readBack c = c ↔ 0x20 ≤ c ∨ HasShortEscape c := by
  unfold readBack
  by_cases hcontrol : c < 0x20 ∧ ¬ HasShortEscape c
  · rw [if_pos hcontrol]
    constructor
    · rintro rfl
      exact absurd hcontrol.1 (by decide)
    · rintro (hle | hshort)
      · exact absurd hle (UInt8.not_le.2 hcontrol.1)
      · exact absurd hshort hcontrol.2
  · rw [if_neg hcontrol]
    refine ⟨fun _ => ?_, fun _ => rfl⟩
    by_cases hlow : c < 0x20
    · exact .inr (not_not.1 fun hshort => hcontrol ⟨hlow, hshort⟩)
    · exact .inl (UInt8.not_lt.1 hlow)

theorem escape_item (c : UInt8) : ∃ item : StrItem, item.text = jsonEscapeByte c ∧ item.decoded = readBack c := by
  rcases jsonEscapeByte_cases c with ⟨d, hd, heq, hun, hplain⟩ | ⟨heq, hlow, hshort⟩ | ⟨heq, hlow, hq, hb⟩
  · refine ⟨.escape d ⟨?_, ?_⟩, heq.symm, hun.trans ((readBack_eq_iff c).2 hplain).symm⟩
    · rintro rfl
      exact absurd hd (by decide)
    · rintro rfl
      exact absurd hd (by decide)
  · refine ⟨.unicode _ _ _ _ ?_, heq.symm, (if_pos ⟨hlow, hshort⟩).symm⟩
    simp only [List.mem_cons, List.not_mem_nil, or_false]
    rintro d (rfl | rfl | rfl | rfl) <;> exact hexDigit_plain _
  · refine ⟨.plain c ⟨?_, hq, hb⟩, heq.symm, ((readBack_eq_iff c).2 (.inl hlow)).symm⟩
    rintro rfl
    exact absurd hlow (by decide)

theorem escape_items : ∀ s : List UInt8, ∃ items : Str, items.body = jsonEscape s ∧ items.decoded = s.map readBack
  | [] => ⟨[], rfl, rfl⟩
  | c :: s => by
    obtain ⟨item, htext, hdec⟩ := escape_item c
    obtain ⟨items, hbody, hdecs⟩ := escape_items s
    refine ⟨item :: items, ?_, ?_⟩
    · change item.text ++ Str.body items = jsonEscapeByte c ++ jsonEscape s
      rw [htext, hbody]
    · change item.decoded :: Str.decoded items = readBack c :: s.map readBack
      rw [hdec, hdecs]

/-- What `parse_string` reads from a quoted escaped text in a buffer that is large enough. -/
theorem parseString_jsonEscape {s : List UInt8} {cap : Nat} (hcap : s.length < cap) (rest : List UInt8) :
    Runs (parseString cap) (quote :: jsonEscape s ++ quote :: rest) (some (s.map readBack)) rest := by
  obtain ⟨items, hbody, hdec⟩ := escape_items s
  have hrun := parseString_runs cap ⟨[], nofun⟩ items rest
  rw [List.nil_append, Str.text_append, hbody, hdec, List.take_of_length_le] at hrun
  · exact hrun
  · rw [List.length_map]
    omega

/-- The escape of a text is a string body if the text is UTF-8, and the server's own string parser reads
the text back from it, stopping behind the closing quote. -/
structure RoundTrips (s : List UInt8) : Prop where
  body : IsUtf8 s → IsStringBody (jsonEscape s)
  decodes : ∀ cap, s.length < cap → ∀ rest,
    Runs (parseString cap) (quote :: jsonEscape s ++ quote :: rest) (some s) rest

/-- A text comes back unchanged exactly if each of its control characters has an escape of its own. -/
theorem roundTrips_iff (s : List UInt8) : RoundTrips s ↔ ∀ c ∈ s, 0x20 ≤ c ∨ HasShortEscape c := by
  constructor
  · intro h c hc
    obtain ⟨heq, -⟩ := (h.decodes (s.length + 1) (Nat.lt_succ_self _) []).unique
      (parseString_jsonEscape (Nat.lt_succ_self _) [])
    have hmap : s.map readBack = s.map id := by rw [List.map_id, ← Option.some.inj heq]
    exact (readBack_eq_iff c).1 (List.map_inj_left.1 hmap c hc)
  · intro h
    refine ⟨jsonEscape_isStringBody, fun cap hcap rest => ?_⟩
    have hmap : s.map readBack = s := by
      rw [List.map_congr_left fun c hc => (readBack_eq_iff c).2 (h c hc), List.map_id']
    have hrun := parseString_jsonEscape hcap rest
    rwa [hmap] at hrun

/-- The terminal's escape character comes back as a question mark. -/
theorem escape_char_lost : ¬ ∀ s : List UInt8, 0 ∉ s → RoundTrips s := by
  intro h
  have hrun := ((h [0x1B] (by decide)).decodes 2 (by decide) []).outcome
  exact absurd hrun (by decide +kernel)

end BitForge.Api
