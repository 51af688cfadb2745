/-
C strings as lists of bytes without a NUL, and the functions of `string.h` on them.
-/
import Mathlib.Data.List.TakeWhile
import Mathlib.Tactic

namespace BitForge.Lib

/-- A property of bytes is decided by going through the 256 of them. -/
theorem uint8_forall {P : UInt8 → Prop} (h : ∀ n : Fin 256, P (UInt8.ofNat n)) (c : UInt8) : P c := by
  have := h ⟨c.toNat, c.toNat_lt⟩
  rwa [UInt8.ofNat_toNat] at this

/-- The bytes of a text of ASCII characters. -/
def ascii (s : String) : List UInt8 := s.toList.map fun c => c.toNat.toUInt8

/-- `strstr`: the offset of the first occurrence of `pat`. -/
def strstr : List UInt8 → List UInt8 → Option Nat
  | [], pat => if pat.isPrefixOf [] then some 0 else none
  | c :: s, pat => if pat.isPrefixOf (c :: s) then some 0 else (strstr s pat).map (· + 1)

theorem strstr_eq_some : ∀ {s pat : List UInt8} {i : Nat},
    strstr s pat = some i → pat <+: s.drop i ∧ ∀ j < i, ¬ pat <+: s.drop j
  | [], pat, i, h => by
    unfold strstr at h
    split at h
    · next hp =>
      cases h
      exact ⟨List.isPrefixOf_iff_prefix.1 hp, nofun⟩
    · cases h
  | c :: s, pat, i, h => by
    unfold strstr at h
    split at h
    · next hp =>
      cases h
      exact ⟨List.isPrefixOf_iff_prefix.1 hp, nofun⟩
    · next hp =>
      obtain ⟨k, hk, rfl⟩ := Option.map_eq_some_iff.1 h
      obtain ⟨hpat, hfirst⟩ := strstr_eq_some hk
      refine ⟨hpat, fun j hj => ?_⟩
      cases j with
      | zero => exact fun hc => hp (List.isPrefixOf_iff_prefix.2 hc)
      | succ j => exact hfirst j (by omega)

theorem strstr_eq_none : ∀ {s pat : List UInt8}, pat ≠ [] → strstr s pat = none → ∀ j, ¬ pat <+: s.drop j
  | [], pat, hne, _, j => by
    rw [List.drop_nil]
    exact fun hc => hne (List.prefix_nil.1 hc)
  | c :: s, pat, hne, h, j => by
    unfold strstr at h
    split at h
    · cases h
    · next hp =>
      cases j with
      | zero => exact fun hc => hp (List.isPrefixOf_iff_prefix.2 hc)
      | succ j => exact strstr_eq_none hne (Option.map_eq_none_iff.1 h) j

/-- The first occurrence of a pattern. -/
theorem strstr_of_first {s pat : List UInt8} {i : Nat} (hne : pat ≠ []) (hpat : pat <+: s.drop i)
    (hfirst : ∀ j < i, ¬ pat <+: s.drop j) : strstr s pat = some i := by
  cases h : strstr s pat with
  | none => exact absurd hpat (strstr_eq_none hne h i)
  | some k =>
    obtain ⟨hk, hkfirst⟩ := strstr_eq_some h
    rcases Nat.lt_trichotomy k i with hlt | rfl | hgt
    · exact absurd hk (hfirst k hlt)
    · rfl
    · exact absurd hpat (hkfirst i hgt)

theorem strstr_length {s pat : List UInt8} {i : Nat} (hne : pat ≠ []) (h : strstr s pat = some i) :
    i + pat.length ≤ s.length := by
  have hlen := (strstr_eq_some h).1.length_le
  have hpos : 0 < pat.length := List.length_pos_iff.2 hne
  rw [List.length_drop] at hlen
  omega

/-- What is found is found in a longer text. -/
theorem strstr_append {s pat : List UInt8} {i : Nat} (hne : pat ≠ []) (h : strstr s pat = some i) (more : List UInt8) :
    strstr (s ++ more) pat = some i := by
  have hlen := strstr_length hne h
  obtain ⟨hpat, hfirst⟩ := strstr_eq_some h
  refine strstr_of_first hne ?_ fun j hj hc => hfirst j hj ?_
  · rw [List.drop_append_of_le_length (by omega)]
    exact hpat.trans (List.prefix_append ..)
  · rw [List.drop_append_of_le_length (by omega)] at hc
    refine List.prefix_of_prefix_length_le hc (List.prefix_append ..) ?_
    rw [List.length_drop]
    omega

/-- Nothing is found in a text that has no occurrence and ends in a byte of none but the last place. -/
theorem strstr_skip {s pat : List UInt8} {b : UInt8} (hne : pat ≠ []) (hs : strstr (s ++ [b]) pat = none)
    (hb : b ∉ pat.dropLast) (more : List UInt8) :
    strstr (s ++ [b] ++ more) pat = (strstr more pat).map ((s ++ [b]).length + ·) := by
  have hskip : ∀ j < (s ++ [b]).length, ¬ pat <+: (s ++ [b] ++ more).drop j := by
    intro j hj hc
    have hdrop : (s ++ [b] ++ more).drop j = (s ++ [b]).drop j ++ more := List.drop_append_of_le_length (by omega)
    rw [hdrop] at hc
    rcases Nat.lt_or_ge ((s ++ [b]).drop j).length pat.length with hlt | hge
    · -- the text before ends inside the pattern, with its last byte
      have hinside : (s ++ [b]).drop j <+: pat.dropLast := by
        refine List.prefix_of_prefix_length_le (List.prefix_append _ more) ((List.dropLast_prefix _).trans hc) ?_
        rw [List.length_dropLast]
        omega
      refine hb (hinside.subset ?_)
      rw [List.length_append, List.length_singleton] at hj
      rw [List.drop_append_of_le_length (by omega)]
      exact List.mem_append_right _ (List.mem_singleton.2 rfl)
    · exact strstr_eq_none hne hs j (List.prefix_of_prefix_length_le hc (List.prefix_append ..) hge)
  cases h : strstr more pat with
  | none =>
    cases h' : strstr (s ++ [b] ++ more) pat with
    | none => rfl
    | some k =>
      have hk := (strstr_eq_some h').1
      rcases Nat.lt_or_ge k (s ++ [b]).length with hlt | hge
      · exact absurd hk (hskip k hlt)
      · obtain ⟨i, rfl⟩ := Nat.exists_eq_add_of_le hge
        rw [← List.drop_drop, List.drop_left] at hk
        exact absurd hk (strstr_eq_none hne h i)
  | some i =>
    obtain ⟨hpat, hfirst⟩ := strstr_eq_some h
    refine strstr_of_first hne ?_ fun j hj hc => ?_
    · rw [← List.drop_drop, List.drop_left]
      exact hpat
    · rcases Nat.lt_or_ge j (s ++ [b]).length with hlt | hge
      · exact hskip j hlt hc
      · obtain ⟨k, rfl⟩ := Nat.exists_eq_add_of_le hge
        rw [← List.drop_drop, List.drop_left] at hc
        exact hfirst k (Nat.lt_of_add_lt_add_left hj) hc

/-- Bytes that the pattern does not start with are passed over. -/
theorem strstr_pass {a : UInt8} {l : List UInt8} (hl : a ∉ l) (s pat : List UInt8) :
    strstr (l ++ s) (a :: pat) = (strstr s (a :: pat)).map (l.length + ·) := by
  induction l with
  | nil => simp
  | cons c l ih =>
    rw [List.mem_cons, not_or] at hl
    have hne : (a :: pat).isPrefixOf (c :: (l ++ s)) = false := by
      rw [List.isPrefixOf_cons_cons, beq_eq_false_iff_ne.2 hl.1, Bool.false_and]
    rw [List.cons_append, strstr, hne, if_neg Bool.false_ne_true, ih hl.2, Option.map_map, List.length_cons]
    congr 1
    funext i
    simp only [Function.comp]
    omega

/-- A pattern whose first byte stands nowhere else in it, behind a text without it. -/
theorem strstr_join {a : UInt8} {rest l : List UInt8} (ha : a ∉ rest) (hl : strstr l (a :: rest) = none) (more : List UInt8) :
    strstr (l ++ a :: rest ++ more) (a :: rest) = some l.length := by
  refine strstr_of_first (by simp) ?_ fun j hj hc => ?_
  · rw [List.append_assoc, List.drop_left]
    exact List.prefix_append _ _
  · rw [List.append_assoc, List.drop_append_of_le_length (by omega)] at hc
    rcases Nat.lt_or_ge (l.drop j).length (a :: rest).length with hlt | hge
    · -- the pattern would start again inside itself
      obtain ⟨tail, htail⟩ := List.prefix_of_prefix_length_le (List.prefix_append (l.drop j) _) hc hlt.le
      obtain ⟨b, u, hu⟩ := List.exists_cons_of_ne_nil (show l.drop j ≠ [] by simp; omega)
      rw [hu, List.cons_append, List.cons.injEq] at htail
      obtain ⟨t, ht⟩ := hc
      rw [hu, ← htail.2, htail.1] at ht
      have hlen : (b :: u).length < (a :: rest).length := by rw [← hu]; exact hlt
      have hne : tail ≠ [] := by
        rintro rfl
        rw [← htail.2] at hlen
        simp at hlen
      obtain ⟨x, v, rfl⟩ := List.exists_cons_of_ne_nil hne
      simp only [List.cons_append, List.append_assoc, List.cons.injEq, true_and, List.append_cancel_left_eq] at ht
      rw [ht.1] at htail
      exact ha (htail.2 ▸ by simp)
    · exact strstr_eq_none (by simp) hl j (List.prefix_of_prefix_length_le hc (List.prefix_append ..) hge)

theorem not_mem_takeWhile (b : UInt8) (l : List UInt8) : b ∉ l.takeWhile (· ≠ b) := by
  intro h
  simpa using List.mem_takeWhile_imp h

/-- The C string that starts at the first of the bytes: what stands before a NUL. -/
def untilNul (bytes : List UInt8) : List UInt8 := bytes.takeWhile (· ≠ 0)

theorem untilNul_append {l : List UInt8} (hl : 0 ∉ l) (s : List UInt8) : untilNul (l ++ s) = l ++ untilNul s := by
  unfold untilNul
  exact List.takeWhile_append_of_pos fun c hc => by simpa using fun h : c = 0 => hl (h ▸ hc)

theorem untilNul_of_noNul {l : List UInt8} (hl : 0 ∉ l) : untilNul l = l := by
  have h := untilNul_append hl []
  rwa [List.append_nil, show untilNul [] = [] from rfl, List.append_nil] at h

theorem untilNul_cons {c : UInt8} (hc : c ≠ 0) (s : List UInt8) : untilNul (c :: s) = c :: untilNul s := by
  unfold untilNul
  rw [List.takeWhile_cons, if_pos (by simpa using hc)]

theorem untilNul_noNul (l : List UInt8) : 0 ∉ untilNul l := not_mem_takeWhile 0 l

theorem length_untilNul_le (l : List UInt8) : (untilNul l).length ≤ l.length := (List.takeWhile_sublist _).length_le

/-- `strchr`: what follows the first occurrence of a byte. -/
def afterChar (b : UInt8) : List UInt8 → Option (List UInt8)
  | [] => none
  | c :: s => if c = b then some s else afterChar b s

theorem afterChar_eq_some {b : UInt8} : ∀ {p q : List UInt8}, afterChar b p = some q →
    p = p.takeWhile (· ≠ b) ++ b :: q
  | c :: p, q, h => by
    rw [afterChar] at h
    by_cases hc : c = b
    · rw [if_pos hc, Option.some_inj] at h
      subst hc
      subst h
      simp
    · rw [if_neg hc] at h
      rw [List.takeWhile_cons_of_pos (by simpa using hc), List.cons_append, ← afterChar_eq_some h]

theorem afterChar_eq_none {b : UInt8} : ∀ {p : List UInt8}, afterChar b p = none → b ∉ p
  | [], _ => List.not_mem_nil
  | c :: p, h => by
    rw [afterChar] at h
    by_cases hc : c = b
    · rw [if_pos hc] at h
      cases h
    · rw [if_neg hc] at h
      rw [List.mem_cons, not_or]
      exact ⟨Ne.symm hc, afterChar_eq_none h⟩

/-- `strcmp`, of which callers use the sign. -/
def strcmp : List UInt8 → List UInt8 → Int
  | [], [] => 0
  | [], _ :: _ => -1
  | _ :: _, [] => 1
  | a :: s, b :: t => if a = b then strcmp s t else (a.toNat : Int) - b.toNat

theorem toNat_sub_ne_zero {a b : UInt8} (h : a ≠ b) : (a.toNat : Int) - b.toNat ≠ 0 := fun h0 =>
  h (UInt8.toNat_inj.1 (by omega))

theorem strcmp_eq_zero : ∀ {s t : List UInt8}, strcmp s t = 0 ↔ s = t
  | [], [] => by simp [strcmp]
  | [], _ :: _ => by simp [strcmp]
  | _ :: _, [] => by simp [strcmp]
  | a :: s, b :: t => by
    rw [strcmp, List.cons.injEq]
    by_cases hab : a = b
    · rw [if_pos hab, strcmp_eq_zero, and_iff_right hab]
    · rw [if_neg hab]
      exact iff_of_false (toNat_sub_ne_zero hab) fun h => hab h.1

theorem strcmp_neg : ∀ s t : List UInt8, strcmp t s = -strcmp s t
  | [], [] => rfl
  | [], _ :: _ => rfl
  | _ :: _, [] => rfl
  | a :: s, b :: t => by
    rw [strcmp, strcmp]
    by_cases hab : a = b
    · rw [if_pos hab, if_pos hab.symm, strcmp_neg s t]
    · rw [if_neg hab, if_neg (Ne.symm hab)]
      omega

theorem strcmp_trans : ∀ {s t u : List UInt8}, strcmp s t ≤ 0 → strcmp t u ≤ 0 → strcmp s u ≤ 0
  | [], _, [], _, _ => by simp [strcmp]
  | [], _, _ :: _, _, _ => by simp [strcmp]
  | _ :: _, [], _, hst, _ => by simp [strcmp] at hst
  | _ :: _, _ :: _, [], _, htu => by simp [strcmp] at htu
  | a :: s, b :: t, c :: u, hst, htu => by
    rw [strcmp] at hst htu ⊢
    by_cases hab : a = b
    · by_cases hbc : b = c
      · rw [if_pos hab] at hst
        rw [if_pos hbc] at htu
        rw [if_pos (hab.trans hbc)]
        exact strcmp_trans hst htu
      · rw [if_neg hbc] at htu
        rwa [hab, if_neg hbc]
    · rw [if_neg hab] at hst
      have hlt := toNat_sub_ne_zero hab
      by_cases hbc : b = c
      · rwa [← hbc, if_neg hab]
      · rw [if_neg hbc] at htu
        have hac : a ≠ c := by
          rintro rfl
          omega
        rw [if_neg hac]
        omega

/-- A buffer of `snprintf` calls one after the other: its text, and the offset that the untruncated
lengths add up to. -/
structure FormatBuf where
  text : List UInt8
  off : Nat
deriving DecidableEq, Repr

/-- `off += snprintf(buf + off, size - off, ..)` of the text `s`. At an offset past the size the call
writes behind the buffer and leaves its text as it is. -/
def FormatBuf.snprintf (size : Nat) (b : FormatBuf) (s : List UInt8) : FormatBuf :=
  { text := if b.off < size then (b.text.take b.off ++ s).take (size - 1) else b.text
    off := b.off + s.length }

end BitForge.Lib
