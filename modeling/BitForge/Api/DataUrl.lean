/-
Images in `data:` URLs, `api/data_url.c`, against the encoding of base64. Allocation succeeds.
-/
import BitForge.Lib.CString
import Mathlib.Data.List.TakeWhile
import Mathlib.Tactic

namespace BitForge.Api

open BitForge.Lib

/-! ## The decoder -/

/-- `b64_val`; missing where it is negative. -/
def b64Val (c : UInt8) : Option Nat :=
  if 65 ≤ c ∧ c ≤ 90 then some (c.toNat - 65)
  else if 97 ≤ c ∧ c ≤ 122 then some (c.toNat - 97 + 26)
  else if 48 ≤ c ∧ c ≤ 57 then some (c.toNat - 48 + 52)
  else if c = 43 then some 62
  else if c = 47 then some 63
  else none

/-- The bytes of a group: `(group[0] << 2) | (group[1] >> 4)` and so on, as `unsigned char`. -/
def byte0 (a b : Nat) : UInt8 := UInt8.ofNat ((a <<< 2) ||| (b >>> 4))

def byte1 (b c : Nat) : UInt8 := UInt8.ofNat ((b <<< 4) ||| (c >>> 2))

def byte2 (c d : Nat) : UInt8 := UInt8.ofNat ((c <<< 6) ||| d)

/-- What is written behind the last full group. -/
def lastGroup : List Nat → List UInt8
  | [a, b] => [byte0 a b]
  | [a, b, c] => [byte0 a b, byte1 b c]
  | _ => []

/-- The bytes that the loop and its end write for the rest of the payload, with `group` begun. -/
def decodePayload : List Nat → List UInt8 → List UInt8
  | group, [] => lastGroup group
  | group, ch :: payload =>
    if ch = 61 then lastGroup group -- padding: end of data
    else
      match b64Val ch with
      | none => decodePayload group payload
      | some v =>
        match group with
        | [a, b, c] => byte0 a b :: byte1 b c :: byte2 c v :: decodePayload [] payload
        | _ => decodePayload (group ++ [v]) payload

/-- The spaces and line ends at the end of a payload. -/
def isTrailing (c : UInt8) : Bool := c == 10 || c == 13 || c == 32

def payloadOf (payload : List UInt8) : List UInt8 := (payload.reverse.dropWhile isTrailing).reverse

def b64Marker : List UInt8 := ascii ";base64,"

/-- What `data_url_decode` allocates and writes. -/
structure DecodedUrl where
  cap : Nat
  data : List UInt8
deriving DecidableEq, Repr

/-- `data_url_decode`; missing where it returns `TN_ERR_INVALID_ARGS`. -/
def dataUrlDecode (dataUrl : List UInt8) : Option DecodedUrl :=
  if (ascii "data:").isPrefixOf dataUrl then
    match strstr dataUrl b64Marker with
    | none => none
    | some marker =>
      let payload := payloadOf (dataUrl.drop (marker + 8))
      if payload.length = 0 then none else some ⟨payload.length, decodePayload [] payload⟩
  else none

/-! ## The encoding -/

/-- The character of six bits. -/
def b64Char (v : Nat) : UInt8 :=
  if v < 26 then UInt8.ofNat (65 + v)
  else if v < 52 then UInt8.ofNat (97 + (v - 26))
  else if v < 62 then UInt8.ofNat (48 + (v - 52))
  else if v = 62 then 43
  else 47

/-- Base64 without the padding. -/
def b64Encode : List UInt8 → List UInt8
  | a :: b :: c :: rest =>
    b64Char (a.toNat / 4) :: b64Char (a.toNat % 4 * 16 + b.toNat / 16) :: b64Char (b.toNat % 16 * 4 + c.toNat / 64) ::
      b64Char (c.toNat % 64) :: b64Encode rest
  | [a, b] => [b64Char (a.toNat / 4), b64Char (a.toNat % 4 * 16 + b.toNat / 16), b64Char (b.toNat % 16 * 4)]
  | [a] => [b64Char (a.toNat / 4), b64Char (a.toNat % 4 * 16)]
  | [] => []

/-- The padding of `n` bytes. -/
def b64Padding (n : Nat) : List UInt8 := List.replicate ((3 - n % 3) % 3) 61

/-- The characters that an encoded text is made of. -/
def isEncoded (c : UInt8) : Bool := (b64Val c).isSome || c == 61

/-! ## Characters -/

theorem b64Val_char : ∀ v < 64, b64Val (b64Char v) = some v := by
  decide +kernel

theorem b64Char_ne : ∀ v < 64, b64Char v ≠ 61 := by
  decide +kernel

theorem isEncoded_char {v : Nat} (hv : v < 64) : isEncoded (b64Char v) = true := by
  simp [isEncoded, b64Val_char v hv]

theorem not_isEncoded_trailing {c : UInt8} (h : isTrailing c = true) : isEncoded c = false := by
  unfold isTrailing at h
  simp only [Bool.or_eq_true, beq_iff_eq] at h
  rcases h with (rfl | rfl) | rfl <;> decide

/-! ## Junk -/

/-- Characters that no encoded text has are passed over. -/
theorem decodePayload_filter : ∀ (group : List Nat) (payload : List UInt8),
    decodePayload group payload = decodePayload group (payload.filter isEncoded)
  | group, [] => rfl
  | group, ch :: payload => by
    by_cases hpad : ch = 61
    · subst hpad
      rw [List.filter_cons_of_pos (by decide)]
      simp [decodePayload]
    · cases hval : b64Val ch with
      | none =>
        have hjunk : isEncoded ch = false := by simp [isEncoded, hval, hpad]
        rw [List.filter_cons_of_neg (by simp [hjunk]), decodePayload, if_neg hpad, hval]
        exact decodePayload_filter group payload
      | some v =>
        have hchar : isEncoded ch = true := by simp [isEncoded, hval]
        have ih := fun g => decodePayload_filter g payload
        rw [List.filter_cons_of_pos hchar]
        rcases group with _ | ⟨a, _ | ⟨b, _ | ⟨c, _ | ⟨d, group⟩⟩⟩⟩ <;> simp only [decodePayload, if_neg hpad, hval, ih]

theorem filter_payloadOf (payload : List UInt8) : (payloadOf payload).filter isEncoded = payload.filter isEncoded := by
  have hsplit : payload = payloadOf payload ++ (payload.reverse.takeWhile isTrailing).reverse := by
    unfold payloadOf
    rw [← List.reverse_append, List.takeWhile_append_dropWhile, List.reverse_reverse]
  have hjunk : ((payload.reverse.takeWhile isTrailing).reverse).filter isEncoded = [] := by
    rw [List.filter_eq_nil_iff]
    intro c hc
    have htrailing := List.mem_takeWhile_imp (List.mem_reverse.1 hc)
    simp [not_isEncoded_trailing htrailing]
  conv_rhs => rw [hsplit, List.filter_append, hjunk, List.append_nil]

/-! ## Groups -/

theorem byte0_eq {a b : Nat} (hb : b < 64) : byte0 a b = UInt8.ofNat (a * 4 + b / 16) := by
  unfold byte0
  rw [Nat.shiftLeft_eq, Nat.shiftRight_eq_div_pow, Nat.mul_comm, ← Nat.two_pow_add_eq_or_of_lt (by omega)]

theorem byte1_eq {b c : Nat} (hc : c < 64) : byte1 b c = UInt8.ofNat (b * 16 + c / 4) := by
  unfold byte1
  rw [Nat.shiftLeft_eq, Nat.shiftRight_eq_div_pow, Nat.mul_comm, ← Nat.two_pow_add_eq_or_of_lt (by omega)]

theorem byte2_eq {c d : Nat} (hd : d < 64) : byte2 c d = UInt8.ofNat (c * 64 + d) := by
  unfold byte2
  rw [Nat.shiftLeft_eq, Nat.mul_comm, ← Nat.two_pow_add_eq_or_of_lt (by omega)]

/-- A number of 8 bits or more, by its remainder. -/
theorem ofNat_eq {n : Nat} {a : UInt8} (h : n % 256 = a.toNat) : UInt8.ofNat n = a := by
  apply UInt8.toNat_inj.1
  rw [UInt8.toNat_ofNat']
  exact h

section

variable (a b c : UInt8)

theorem byte0_encode : byte0 (a.toNat / 4) (a.toNat % 4 * 16 + b.toNat / 16) = a := by
  have ha := a.toNat_lt
  have hb := b.toNat_lt
  rw [byte0_eq (by omega)]
  exact ofNat_eq (by omega)

theorem byte0_encode_last : byte0 (a.toNat / 4) (a.toNat % 4 * 16) = a := by
  have ha := a.toNat_lt
  rw [byte0_eq (by omega)]
  exact ofNat_eq (by omega)

theorem byte1_encode : byte1 (a.toNat % 4 * 16 + b.toNat / 16) (b.toNat % 16 * 4 + c.toNat / 64) = b := by
  have hb := b.toNat_lt
  have hc := c.toNat_lt
  rw [byte1_eq (by omega)]
  exact ofNat_eq (by omega)

theorem byte1_encode_last : byte1 (a.toNat % 4 * 16 + b.toNat / 16) (b.toNat % 16 * 4) = b := by
  have hb := b.toNat_lt
  rw [byte1_eq (by omega)]
  exact ofNat_eq (by omega)

theorem byte2_encode : byte2 (b.toNat % 16 * 4 + c.toNat / 64) (c.toNat % 64) = c := by
  have hc := c.toNat_lt
  rw [byte2_eq (by omega)]
  exact ofNat_eq (by omega)

end

/-- A character of the alphabet is added to a group that is not full. -/
theorem decodePayload_char {v : Nat} (hv : v < 64) {group : List Nat} (hgroup : group.length < 3) (payload : List UInt8) :
    decodePayload group (b64Char v :: payload) = decodePayload (group ++ [v]) payload := by
  rw [decodePayload, if_neg (b64Char_ne v hv), b64Val_char v hv]
  rcases group with _ | ⟨a, _ | ⟨b, _ | ⟨c, group⟩⟩⟩
  · rfl
  · rfl
  · rfl
  · exact absurd hgroup (by simp)

theorem decodePayload_full {v : Nat} (hv : v < 64) (a b c : Nat) (payload : List UInt8) :
    decodePayload [a, b, c] (b64Char v :: payload) = byte0 a b :: byte1 b c :: byte2 c v :: decodePayload [] payload := by
  rw [decodePayload, if_neg (b64Char_ne v hv), b64Val_char v hv]

/-- The padding, or the end, closes the last group. -/
theorem decodePayload_end (group : List Nat) (n : Nat) : decodePayload group (List.replicate n 61) = lastGroup group := by
  cases n with
  | zero => rfl
  | succ n => simp [List.replicate_succ, decodePayload]

/-- An encoded text with or without its padding decodes to the bytes. -/
theorem decodePayload_encode (n : Nat) : ∀ bs : List UInt8, decodePayload [] (b64Encode bs ++ List.replicate n 61) = bs
  | [] => decodePayload_end [] n
  | [a] => by
    have ha := a.toNat_lt
    simp only [b64Encode, List.cons_append, List.nil_append]
    rw [decodePayload_char (by omega) (by simp), decodePayload_char (by omega) (by simp), decodePayload_end]
    simp only [List.nil_append, List.cons_append, lastGroup, byte0_encode_last]
  | [a, b] => by
    have ha := a.toNat_lt
    have hb := b.toNat_lt
    simp only [b64Encode, List.cons_append, List.nil_append]
    rw [decodePayload_char (by omega) (by simp), decodePayload_char (by omega) (by simp), decodePayload_char (by omega) (by simp),
      decodePayload_end]
    simp only [List.nil_append, List.cons_append, lastGroup, byte0_encode, byte1_encode_last]
  | a :: b :: c :: rest => by
    have ha := a.toNat_lt
    have hb := b.toNat_lt
    have hc := c.toNat_lt
    simp only [b64Encode, List.cons_append]
    rw [decodePayload_char (by omega) (by simp), decodePayload_char (by omega) (by simp), decodePayload_char (by omega) (by simp)]
    simp only [List.nil_append, List.cons_append]
    rw [decodePayload_full (by omega), byte0_encode, byte1_encode, byte2_encode, decodePayload_encode n rest]

theorem isEncoded_encode : ∀ bs : List UInt8, ∀ c ∈ b64Encode bs, isEncoded c = true
  | [], _, h => absurd h (by simp [b64Encode])
  | [a], c, h => by
    have ha := a.toNat_lt
    simp only [b64Encode, List.mem_cons, List.not_mem_nil, or_false] at h
    rcases h with rfl | rfl <;> exact isEncoded_char (by omega)
  | [a, b], c, h => by
    have ha := a.toNat_lt
    have hb := b.toNat_lt
    simp only [b64Encode, List.mem_cons, List.not_mem_nil, or_false] at h
    rcases h with rfl | rfl | rfl <;> exact isEncoded_char (by omega)
  | a :: b :: c :: rest, ch, h => by
    have ha := a.toNat_lt
    have hb := b.toNat_lt
    have hc := c.toNat_lt
    simp only [b64Encode, List.mem_cons] at h
    rcases h with rfl | rfl | rfl | rfl | h
    iterate 4 exact isEncoded_char (by omega)
    exact isEncoded_encode rest ch h

/-! ## The buffer -/

theorem length_lastGroup (group : List Nat) : (lastGroup group).length ≤ group.length := by
  unfold lastGroup
  split <;> simp

/-- No more bytes are written than there are characters. -/
theorem length_decodePayload : ∀ (group : List Nat) (payload : List UInt8), group.length ≤ 3 →
    (decodePayload group payload).length ≤ group.length + payload.length
  | group, [], _ => by
    simpa [decodePayload] using length_lastGroup group
  | group, ch :: payload, h3 => by
    rw [decodePayload]
    split
    · have hlast := length_lastGroup group
      simp only [List.length_cons]
      omega
    · cases b64Val ch with
      | none =>
        have ih := length_decodePayload group payload h3
        simp only [List.length_cons]
        omega
      | some v =>
        dsimp only
        split
        · have ih := length_decodePayload [] payload (by simp)
          simp only [List.length_cons, List.length_nil] at *
          omega
        · next hfull =>
          have hlt : group.length < 3 := by
            rcases group with _ | ⟨a, _ | ⟨b, _ | ⟨c, _ | ⟨d, group⟩⟩⟩⟩
            · simp
            · simp
            · simp
            · exact absurd rfl (hfull a b c)
            · simp only [List.length_cons] at h3
              omega
          have ih := length_decodePayload (group ++ [v]) payload (by simp; omega)
          simp only [List.length_append, List.length_cons, List.length_nil] at *
          omega

/-! ## The URL -/

/-- The marker behind a media type that does not have it. -/
theorem strstr_marker {media : List UInt8} (hmedia : strstr media b64Marker = none) (more : List UInt8) :
    strstr (ascii "data:" ++ media ++ b64Marker ++ more) b64Marker = some (5 + media.length) := by
  obtain ⟨rest, hrest, hno⟩ : ∃ rest, b64Marker = 59 :: rest ∧ 59 ∉ rest := ⟨ascii "base64,", by decide, by decide⟩
  rw [hrest] at hmedia ⊢
  rw [List.append_assoc, List.append_assoc, strstr_pass (by decide), ← List.append_assoc, strstr_join hno hmedia]
  rfl

/-- Junk in an encoded text: what is left without it is the text, with its padding or not. -/
def Carries (text bs : List UInt8) : Prop :=
  text.filter isEncoded = b64Encode bs ∨ text.filter isEncoded = b64Encode bs ++ b64Padding bs.length

theorem carries_encode (bs : List UInt8) : Carries (b64Encode bs) bs :=
  .inl (List.filter_eq_self.2 (isEncoded_encode bs))

theorem decodePayload_carries {text bs trail : List UInt8} (hcarries : Carries text bs)
    (htrail : ∀ c ∈ trail, isTrailing c = true) : decodePayload [] (payloadOf (text ++ trail)) = bs := by
  have hjunk : trail.filter isEncoded = [] := by
    rw [List.filter_eq_nil_iff]
    intro c hc
    simp [not_isEncoded_trailing (htrail c hc)]
  rw [decodePayload_filter, filter_payloadOf, List.filter_append, hjunk, List.append_nil]
  rcases hcarries with h | h <;> rw [h]
  · simpa using decodePayload_encode 0 bs
  · exact decodePayload_encode _ bs

/-- Encoded bytes are decoded; whatever comes in, no more bytes are written than are allocated, and nothing without the
prefix and the marker is accepted. -/
theorem dataUrlDecode_encode :
    (∀ bs media text trail : List UInt8, bs ≠ [] → 0 ∉ text → strstr media b64Marker = none → Carries text bs →
        (∀ c ∈ trail, isTrailing c = true) →
        (dataUrlDecode (ascii "data:" ++ media ++ b64Marker ++ (text ++ trail))).map DecodedUrl.data = some bs) ∧
      ∀ url r, dataUrlDecode url = some r →
        r.data.length ≤ r.cap ∧ ascii "data:" <+: url ∧ (strstr url b64Marker).isSome := by
  constructor
  · rintro bs media text trail hne - hmedia hcarries htrail
    have hdecode := decodePayload_carries hcarries htrail
    have hdrop : (ascii "data:" ++ media ++ b64Marker ++ (text ++ trail)).drop (5 + media.length + 8) = text ++ trail := by
      have hlen : (ascii "data:" ++ media ++ b64Marker).length = 5 + media.length + 8 := by
        simp only [List.length_append]
        rfl
      rw [← hlen, List.drop_left]
    have hpre : (ascii "data:").isPrefixOf (ascii "data:" ++ media ++ b64Marker ++ (text ++ trail)) = true := by
      rw [List.isPrefixOf_iff_prefix, List.append_assoc, List.append_assoc]
      exact List.prefix_append _ _
    have hpayload : payloadOf (text ++ trail) ≠ [] := by
      intro hnil
      rw [hnil] at hdecode
      exact hne hdecode.symm
    unfold dataUrlDecode
    rw [if_pos hpre, strstr_marker hmedia]
    dsimp only
    rw [hdrop, if_neg (by simpa using hpayload), Option.map_some, hdecode]
  · intro url r h
    unfold dataUrlDecode at h
    split at h
    · next hpre =>
      split at h
      · cases h
      · next marker hmarker =>
        dsimp only at h
        split at h
        · cases h
        · rw [Option.some.injEq] at h
          have hlen := length_decodePayload [] (payloadOf (url.drop (marker + 8))) (by simp)
          rw [← h, hmarker]
          exact ⟨by simpa using hlen, List.isPrefixOf_iff_prefix.1 hpre, rfl⟩
    · cases h

theorem dataUrlDecode_gif :
    (dataUrlDecode (ascii "data:" ++ ascii "image/gif" ++ b64Marker ++ (ascii "R0lG\nOA==" ++ ascii "\n"))).map DecodedUrl.data =
      some (ascii "GIF8") :=
  dataUrlDecode_encode.1 _ _ _ _ (by decide) (by decide) (by decide) (.inr (by decide)) (by decide +kernel)

end BitForge.Api
