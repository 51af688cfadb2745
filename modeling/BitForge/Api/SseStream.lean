/-
The events of a streamed answer, `api/sse_stream.c`: the text of a token is escaped into a buffer of 1024 bytes, printed
into an event in a buffer of 2048 and sent.
-/
import BitForge.Api.JsonEscape
import BitForge.Lib.Writes
import BitForge.Tokenizer.Decode

namespace BitForge.Api

open BitForge.Lib Writes

/-! ## The writer -/

/-- The stores of `json_escape` from `dst` on; `sprintf` ends what it prints with a NUL. -/
def jsonEscapeStores : Nat → List UInt8 → List (Nat × UInt8)
  | _, [] => []
  | dst, c :: src =>
    let text := jsonEscapeByte c
    storesAt dst (if c < 0x20 ∧ ¬ HasShortEscape c then text ++ [0] else text) ++ jsonEscapeStores (dst + text.length) src

/-- The stores of `sse_write_token` in `escaped`. -/
def escapedStores (tokenText : List UInt8) : List (Nat × UInt8) :=
  jsonEscapeStores 0 tokenText ++ [((jsonEscape tokenText).length, 0)]

/-- What `%.*s` prints of `escaped`. -/
def escapedText (tokenText : List UInt8) : List UInt8 :=
  untilNul ((List.range (jsonEscape tokenText).length).map fun a => (stored (escapedStores tokenText) a).getD 0)

/-- The text that `sse_write_token` prints. -/
def sseEvent (id content : List UInt8) : List UInt8 :=
  ascii "data: \x7b\"id\":\"chatcmpl-" ++ id ++ ascii "\",\"object\":\"chat.completion.chunk\"," ++
    ascii "\"choices\":[\x7b\"index\":0,\"delta\":\x7b\"content\":\"" ++ content ++ ascii "\"\x7d,\"finish_reason\":null\x7d]\x7d\n\n"

/-- `write_all`, with what `write` returns the `k`-th time it is called: the bytes that are sent, and whether no call failed. -/
def writeAll (write : Nat → Nat → Int) : Nat → Nat → List UInt8 → List UInt8 × Bool
  | _, _, [] => ([], true)
  | 0, _, _ => ([], false)
  | fuel + 1, k, buf =>
    let n := write k buf.length
    if n < 0 then ([], false)
    else
      let r := writeAll write fuel (k + 1) (buf.drop n.toNat)
      (buf.take n.toNat ++ r.1, r.2)

/-- `sse_write_token`: the bytes that are sent, and whether it succeeds. -/
def sseWriteToken (write : Nat → Nat → Int) (id tokenText : List UInt8) : List UInt8 × Bool :=
  let buf := sseEvent id (escapedText tokenText)
  if 2048 ≤ buf.length then ([], false) else writeAll write buf.length 0 buf

/-- `%lx` -/
def hexText (n : Nat) : List UInt8 := if n = 0 then [hexDigit 0] else (Nat.digits 16 n).reverse.map hexDigit

/-- `make_id` into a buffer of `cap` bytes. -/
def makeId (time counter cap : Nat) : List UInt8 := (hexText time ++ ascii "-" ++ hexText counter).take (cap - 1)

/-! ## What a call is for -/

/-- A socket that takes what it is given, in one piece or more. -/
def Accepts (write : Nat → Nat → Int) : Prop := ∀ k len, 0 < len → 1 ≤ write k len ∧ write k len ≤ len

/-- A `data` line and the blank line that ends the event. -/
def IsEvent (bytes : List UInt8) : Prop :=
  ∃ line, bytes = ascii "data: " ++ line ++ ascii "\n\n" ∧ 0x0A ∉ line

/-- A call stays inside of both buffers and sends one event. -/
structure WritesOneEvent (write : Nat → Nat → Int) (id tokenText : List UInt8) : Prop where
  escaped : ∀ s ∈ escapedStores tokenText, s.1 < 1024
  buf : (sseEvent id (jsonEscape tokenText)).length < 2048
  sent : sseWriteToken write id tokenText = (sseEvent id (jsonEscape tokenText), true)
  event : IsEvent (sseEvent id (jsonEscape tokenText))

/-- The bytes that get a backslash, and those that get `\u00` and two digits. -/
def NeedsBackslash (c : UInt8) : Prop := c = quote ∨ c = backslash ∨ HasShortEscape c

def NeedsDigits (c : UInt8) : Prop := c < 0x20 ∧ ¬ HasShortEscape c

instance : DecidablePred NeedsBackslash := fun c => inferInstanceAs (Decidable (c = quote ∨ c = backslash ∨ HasShortEscape c))

instance : DecidablePred NeedsDigits := fun c => inferInstanceAs (Decidable (c < 0x20 ∧ ¬ HasShortEscape c))

/-- The bytes of a text, one more for a backslash and five more for digits, are at most 1023. -/
def EscapesShort (text : List UInt8) : Prop :=
  text.length + text.countP (NeedsBackslash ·) + 5 * text.countP (NeedsDigits ·) ≤ 1023

instance (text : List UInt8) : Decidable (EscapesShort text) := inferInstanceAs (Decidable (_ ≤ _))

/-! ## What is escaped -/

theorem jsonEscape_cons (c : UInt8) (src : List UInt8) : jsonEscape (c :: src) = jsonEscapeByte c ++ jsonEscape src := rfl

theorem jsonEscapeByte_length (c : UInt8) :
    (jsonEscapeByte c).length = 1 + (if NeedsBackslash c then 1 else 0) + 5 * (if NeedsDigits c then 1 else 0) := by
  revert c
  apply uint8_forall
  decide +kernel

theorem jsonEscapeByte_clean {c : UInt8} : c ≠ 0 → 0 ∉ jsonEscapeByte c ∧ 0x0A ∉ jsonEscapeByte c := by
  revert c
  apply uint8_forall
  decide +kernel

theorem jsonEscape_length : ∀ text : List UInt8,
    (jsonEscape text).length = text.length + text.countP (NeedsBackslash ·) + 5 * text.countP (NeedsDigits ·)
  | [] => rfl
  | c :: text => by
    rw [jsonEscape_cons, List.length_append, jsonEscapeByte_length, jsonEscape_length text, List.length_cons,
      List.countP_cons, List.countP_cons]
    simp only [decide_eq_true_eq]
    omega

/-- No NUL and no line end is left. -/
theorem jsonEscape_clean {text : List UInt8} (h : 0 ∉ text) : 0 ∉ jsonEscape text ∧ 0x0A ∉ jsonEscape text := by
  unfold jsonEscape
  constructor
  · intro hmem
    obtain ⟨c, hc, hmem⟩ := List.mem_flatMap.1 hmem
    exact (jsonEscapeByte_clean (ne_of_mem_of_not_mem hc h)).1 hmem
  · intro hmem
    obtain ⟨c, hc, hmem⟩ := List.mem_flatMap.1 hmem
    exact (jsonEscapeByte_clean (ne_of_mem_of_not_mem hc h)).2 hmem

/-! ## The buffer -/

/-- The escaped bytes are stored one behind the other, and no store is further than one NUL behind them. -/
theorem mem_jsonEscapeStores : ∀ {src : List UInt8} {dst a : Nat} {v : UInt8}, (a, v) ∈ jsonEscapeStores dst src →
    dst ≤ a ∧ a ≤ dst + (jsonEscape src).length
  | [], _, _, _, h => absurd h List.not_mem_nil
  | c :: src, dst, a, v, h => by
    rw [jsonEscape_cons, List.length_append]
    rcases List.mem_append.1 h with h | h
    · have hrange := mem_storesAt h
      have hlen : (if c < 0x20 ∧ ¬ HasShortEscape c then jsonEscapeByte c ++ [0] else jsonEscapeByte c).length ≤
          (jsonEscapeByte c).length + 1 := by
        split_ifs <;> simp
      omega
    · have := mem_jsonEscapeStores h
      omega

theorem stored_jsonEscapeStores : ∀ (src : List UInt8) (dst i : Nat), i < (jsonEscape src).length →
    stored (jsonEscapeStores dst src) (dst + i) = (jsonEscape src)[i]?
  | [], _, i, hi => absurd hi (Nat.not_lt_zero i)
  | c :: src, dst, i, hi => by
    rw [jsonEscape_cons, List.length_append] at hi
    rw [jsonEscape_cons, jsonEscapeStores, stored_append]
    rcases Nat.lt_or_ge i (jsonEscapeByte c).length with hlt | hge
    · -- what follows is stored behind this byte
      have hrest : stored (jsonEscapeStores (dst + (jsonEscapeByte c).length) src) (dst + i) = none :=
        stored_eq_none fun v hv => by have := (mem_jsonEscapeStores hv).1; omega
      rw [hrest, Option.none_or, stored_storesAt, List.getElem?_append_left hlt]
      split_ifs
      · exact List.getElem?_append_left hlt
      · rfl
    · obtain ⟨j, rfl⟩ := Nat.exists_eq_add_of_le hge
      rw [← Nat.add_assoc, stored_jsonEscapeStores src _ j (by omega), List.getElem?_append_right (by omega),
        Nat.add_sub_cancel_left, List.getElem?_eq_getElem (by omega), Option.some_or]

/-- The event is printed from the escaped text. -/
theorem escapedText_eq {text : List UInt8} (h : 0 ∉ text) : escapedText text = jsonEscape text := by
  have hcells : (List.range (jsonEscape text).length).map (fun a => (stored (escapedStores text) a).getD 0) = jsonEscape text := by
    apply List.ext_getElem
    · simp
    · intro i hi hlt
      have hcell := stored_jsonEscapeStores text 0 i hlt
      rw [Nat.zero_add] at hcell
      rw [List.getElem_map, List.getElem_range, escapedStores, stored_append, hcell, List.getElem?_eq_getElem hlt]
      simp [stored, Nat.ne_of_lt hlt]
  unfold escapedText
  rw [hcells, untilNul_of_noNul (jsonEscape_clean h).1]

/-- The NUL behind the text is stored last and furthest. -/
theorem escapedStores_inside_iff (text : List UInt8) :
    (∀ s ∈ escapedStores text, s.1 < 1024) ↔ (jsonEscape text).length < 1024 := by
  constructor
  · exact fun h => h (_, 0) (List.mem_append_right _ List.mem_cons_self)
  · rintro hlen ⟨a, v⟩ hs
    rcases List.mem_append.1 hs with hs | hs
    · have := (mem_jsonEscapeStores hs).2
      dsimp only
      omega
    · cases List.mem_singleton.1 hs
      exact hlen

/-! ## The event -/

theorem writeAll_accepts {write : Nat → Nat → Int} (h : Accepts write) : ∀ {fuel : Nat} (k : Nat) {buf : List UInt8},
    buf.length ≤ fuel → writeAll write fuel k buf = (buf, true)
  | 0, k, buf, hle => by
    rw [List.length_eq_zero_iff.1 (Nat.le_zero.1 hle)]
    rfl
  | fuel + 1, k, [], _ => rfl
  | fuel + 1, k, c :: buf, hle => by
    obtain ⟨hpos, hmax⟩ := h k (c :: buf).length (Nat.succ_pos _)
    unfold writeAll
    dsimp only
    rw [if_neg (by omega), writeAll_accepts h (k + 1) (by rw [List.length_drop]; omega)]
    simp

theorem hexText_clean (n : Nat) : 0x0A ∉ hexText n := by
  have hdigit : ∀ k, hexDigit k ≠ 0x0A := by
    intro k heq
    exact absurd (heq ▸ hexDigit_mem k) (by decide)
  unfold hexText
  split_ifs
  · simpa using (hdigit 0).symm
  · intro hmem
    obtain ⟨k, -, heq⟩ := List.mem_map.1 hmem
    exact hdigit k heq

theorem makeId_length (time counter : Nat) : (makeId time counter 32).length ≤ 31 := List.length_take_le _ _

theorem makeId_clean (time counter : Nat) : 0x0A ∉ makeId time counter 32 := by
  intro hmem
  have hmem := List.mem_of_mem_take hmem
  rw [List.mem_append, List.mem_append] at hmem
  rcases hmem with (hmem | hmem) | hmem
  · exact hexText_clean _ hmem
  · exact absurd hmem (by decide)
  · exact hexText_clean _ hmem

theorem sseEvent_length (id content : List UInt8) : (sseEvent id content).length = 127 + id.length + content.length := by
  have hid : (ascii "data: \x7b\"id\":\"chatcmpl-").length = 22 := by decide
  have hobject : (ascii "\",\"object\":\"chat.completion.chunk\",").length = 35 := by decide
  have hchoices : (ascii "\"choices\":[\x7b\"index\":0,\"delta\":\x7b\"content\":\"").length = 42 := by decide
  have hfinish : (ascii "\"\x7d,\"finish_reason\":null\x7d]\x7d\n\n").length = 28 := by decide
  unfold sseEvent
  simp only [List.length_append, hid, hobject, hchoices, hfinish]
  omega

/-- What is sent is one event if neither part has a line end. -/
theorem sseEvent_isEvent {id content : List UInt8} (hid : 0x0A ∉ id) (hcontent : 0x0A ∉ content) :
    IsEvent (sseEvent id content) := by
  have hstart : ascii "data: \x7b\"id\":\"chatcmpl-" = ascii "data: " ++ ascii "\x7b\"id\":\"chatcmpl-" := by decide
  have hend : ascii "\"\x7d,\"finish_reason\":null\x7d]\x7d\n\n" =
      ascii "\"\x7d,\"finish_reason\":null\x7d]\x7d" ++ ascii "\n\n" := by decide
  refine ⟨ascii "\x7b\"id\":\"chatcmpl-" ++ id ++ ascii "\",\"object\":\"chat.completion.chunk\"," ++
    ascii "\"choices\":[\x7b\"index\":0,\"delta\":\x7b\"content\":\"" ++ content ++
      ascii "\"\x7d,\"finish_reason\":null\x7d]\x7d", ?_, ?_⟩
  · unfold sseEvent
    rw [hstart, hend]
    simp only [List.append_assoc]
  · simp only [List.mem_append, not_or]
    refine ⟨⟨⟨⟨⟨?_, hid⟩, ?_⟩, ?_⟩, hcontent⟩, ?_⟩
    · decide
    · decide
    · decide
    · decide

theorem writesOneEvent_iff {write : Nat → Nat → Int} (hwrite : Accepts write) {id text : List UInt8} (hlen : id.length ≤ 31)
    (hid : 0x0A ∉ id) (htext : 0 ∉ text) : WritesOneEvent write id text ↔ EscapesShort text := by
  have hinside := escapedStores_inside_iff text
  have hescaped := jsonEscape_length text
  constructor
  · rintro ⟨hstores, -, -, -⟩
    have := hinside.1 hstores
    unfold EscapesShort
    omega
  · intro hshort
    unfold EscapesShort at hshort
    have hbuf : (sseEvent id (jsonEscape text)).length < 2048 := by
      rw [sseEvent_length]
      omega
    refine ⟨hinside.2 (by omega), hbuf, ?_, sseEvent_isEvent hid (jsonEscape_clean htext).2⟩
    unfold sseWriteToken
    rw [escapedText_eq htext, if_neg (by omega)]
    exact writeAll_accepts hwrite 0 (le_refl _)

/-! ## The texts of tokens -/

theorem bpeWritten_length (room : Nat) (s : List UInt8) : (Tokenizer.bpeWritten room s).length ≤ max room 1 := by
  unfold Tokenizer.bpeWritten
  split
  · exact le_max_right _ _
  · exact (List.length_take_le _ _).trans (le_max_left _ _)

/-- The loop leaves room for a NUL. -/
theorem bpeDecodeLoop_length {cap : Nat} : ∀ (fuel : Nat) (s out : List UInt8), out.length + 1 ≤ cap →
    (Tokenizer.bpeDecodeLoop cap fuel s out).length + 1 ≤ cap
  | 0, _, _, h => h
  | _ + 1, [], _, h => h
  | fuel + 1, c :: s, out, h => by
    rw [Tokenizer.bpeDecodeLoop]
    split_ifs with hroom
    · apply bpeDecodeLoop_length
      have := bpeWritten_length (cap - 1 - out.length) (c :: s)
      rw [List.length_append]
      omega
    · exact h

/-- A decoded text is a C string in `decode_buf`. -/
theorem decode_text (t : Tokenizer) (prev token : Int) : (t.decode prev token).length ≤ 511 ∧ 0 ∉ t.decode prev token := by
  unfold Tokenizer.decode
  dsimp only
  split_ifs
  · simp
  · exact ⟨(length_untilNul_le _).trans (by simp), untilNul_noNul _⟩
  · have := @bpeDecodeLoop_length 512 (t.stripSpace prev (t.str token.toNat)).length (t.stripSpace prev (t.str token.toNat))
      [] (by simp)
    have hcut := length_untilNul_le (Tokenizer.bpeBytesDecode (t.stripSpace prev (t.str token.toNat)) 512)
    unfold Tokenizer.bpeBytesDecode at hcut ⊢
    exact ⟨by omega, untilNul_noNul _⟩

/-- A streamed token is one event, and both buffers hold, exactly if its escaped text has at most 1023 bytes. -/
theorem sseWriteToken_iff (t : Tokenizer) (prev token : Int) (time counter : Nat) {write : Nat → Nat → Int}
    (hwrite : Accepts write) :
    ((t.decode prev token).length ≤ 511 ∧ 0 ∉ t.decode prev token) ∧
      (WritesOneEvent write (makeId time counter 32) (t.decode prev token) ↔ EscapesShort (t.decode prev token)) :=
  ⟨decode_text t prev token,
    writesOneEvent_iff hwrite (makeId_length time counter) (makeId_clean time counter) (decode_text t prev token).2⟩

/-- A vocabulary with one token. -/
def oneToken (piece : List UInt8) : Option Tokenizer :=
  Tokenizer.tokenizerLoadFromGguf ⟨none, some (.strings [piece]), none, none, none, none⟩

/-- A loaded token of a quote and a line end. -/
theorem sseWriteToken_iff_quote : ∃ t, oneToken [34, 10] = some t ∧
    WritesOneEvent (fun _ len => len) (makeId 1700000000 1 32) (t.decode (-1) 0) := by
  refine ⟨_, rfl, ?_⟩
  have hwrite : Accepts fun _ len => len := by
    intro k len hlen
    constructor
    · change 1 ≤ (len : Int)
      omega
    · exact le_refl _
  refine (sseWriteToken_iff _ (-1) 0 1700000000 1 hwrite).2.2 ?_
  decide

/-- A loaded token of 171 control characters: the image and its NUL take 1027 bytes. -/
theorem token_overruns : ∃ t, oneToken (List.replicate 171 1) = some t ∧
    ¬ WritesOneEvent (fun _ len => len) (makeId 1700000000 1 32) (t.decode (-1) 0) := by
  refine ⟨_, rfl, ?_⟩
  rintro ⟨hstores, -, -, -⟩
  have hlen := (escapedStores_inside_iff _).1 hstores
  rw [jsonEscape_length] at hlen
  revert hlen
  decide +kernel

end BitForge.Api
