/-
Finding a marker in a text byte by byte, by a matcher that drops its partial match at the first
byte that does not continue it and does not look at that byte again. For a marker whose first byte
occurs in it once, the matcher sees an occurrence exactly when the text before it does not end in
an odd number of partial markers one directly after the other (`Dangling`).
-/
import BitForge.Lib.CString

namespace BitForge.Lib

/-- The text ends in a proper part of the marker that does not itself follow such an end. -/
def Dangling (tag pre : List UInt8) : Prop :=
  ∃ q t, ∃ _ : pre = q ++ t ∧ t ≠ [], t <+: tag ∧ t ≠ tag ∧ ¬ Dangling tag q
termination_by pre.length
decreasing_by
  have hpos : 0 < t.length := List.length_pos_iff.2 (by tauto)
  have hlen : pre.length = q.length + t.length := by rw [‹pre = q ++ t ∧ t ≠ []›.1, List.length_append]
  omega

/-- An occurrence of the marker that the matcher sees. -/
def SeenAt (tag s : List UInt8) (i : Nat) : Prop := tag <+: s.drop i ∧ ¬ Dangling tag (s.take i)

def FirstSeen (tag s : List UInt8) (i : Nat) : Prop := SeenAt tag s i ∧ ∀ j < i, ¬ SeenAt tag s j

/-- The matcher on the text `s` with the partial match `m`: the bytes it has let go, and either the
partial match at the end or the text after the marker. -/
def seek (tag : List UInt8) : List UInt8 → List UInt8 → List UInt8 × (List UInt8 ⊕ List UInt8)
  | m, [] => ([], .inl m)
  | m, c :: s =>
    if m ++ [c] = tag then ([], .inr s)
    else if m ++ [c] <+: tag then seek tag (m ++ [c]) s
    else (m ++ [c] ++ (seek tag [] s).1, (seek tag [] s).2)

theorem dangling_iff (tag pre : List UInt8) :
    Dangling tag pre ↔ ∃ q t, pre = q ++ t ∧ t ≠ [] ∧ t <+: tag ∧ t ≠ tag ∧ ¬ Dangling tag q := by
  rw [Dangling]
  constructor
  · rintro ⟨q, t, ⟨hpre, hne⟩, h⟩
    exact ⟨q, t, hpre, hne, h⟩
  · rintro ⟨q, t, hpre, hne, h⟩
    exact ⟨q, t, ⟨hpre, hne⟩, h⟩

theorem not_dangling_nil (tag : List UInt8) : ¬ Dangling tag [] := by
  rw [dangling_iff]
  rintro ⟨q, t, hpre, hne, -⟩
  exact hne (List.append_eq_nil_iff.1 hpre.symm).2

theorem dangling_append {tag u m : List UInt8} (hu : ¬ Dangling tag u) (hne : m ≠ []) (hm : m <+: tag) (hm' : m ≠ tag) :
    Dangling tag (u ++ m) :=
  (dangling_iff tag _).2 ⟨u, m, rfl, hne, hm, hm', hu⟩

section
variable {b : UInt8} {rest : List UInt8} (hb : b ∉ rest)

include hb in
/-- The parts of the marker at the end of a text are the same. -/
theorem partial_unique {q t u m : List UInt8} (h : q ++ t = u ++ m) (ht : t <+: b :: rest) (ht' : t ≠ [])
    (hm : m <+: b :: rest) (hm' : m ≠ []) : t = m := by
  have hstart : ∀ x : List UInt8, x <+: b :: rest → x ≠ [] → ∃ y, x = b :: y ∧ b ∉ y := by
    intro x hx hne
    obtain ⟨y, rfl⟩ : ∃ y, x = b :: y := by
      cases x with
      | nil => exact absurd rfl hne
      | cons c y =>
        obtain ⟨z, hz⟩ := hx
        exact ⟨y, by rw [(List.cons.inj hz).1]⟩
    obtain ⟨z, hz⟩ := hx
    refine ⟨y, rfl, fun hmem => hb ?_⟩
    rw [← (List.cons.inj hz).2]
    exact List.mem_append_left _ hmem
  obtain ⟨t', rfl, htb⟩ := hstart t ht ht'
  obtain ⟨m', rfl, hmb⟩ := hstart m hm hm'
  rcases List.append_eq_append_iff.1 h with ⟨a, rfl, ha⟩ | ⟨a, rfl, ha⟩
  · cases a with
    | nil => exact ha
    | cons c a =>
      refine absurd ?_ htb
      rw [(List.cons.inj ha).2]
      exact List.mem_append_right _ (List.mem_cons_self ..)
  · cases a with
    | nil => exact ha.symm
    | cons c a =>
      refine absurd ?_ hmb
      rw [(List.cons.inj ha).2]
      exact List.mem_append_right _ (List.mem_cons_self ..)

include hb in
/-- After a byte that does not continue the partial match the matcher starts again. -/
theorem not_dangling_mismatch {u m : List UInt8} {c : UInt8} (hu : ¬ Dangling (b :: rest) u) (hm : m <+: b :: rest)
    (hm' : m ≠ b :: rest) (hc : ¬ m ++ [c] <+: b :: rest) : ¬ Dangling (b :: rest) (u ++ m ++ [c]) := by
  rw [dangling_iff]
  rintro ⟨q, t, hpre, hne, ht, ht', hq⟩
  rcases List.eq_nil_or_concat t with rfl | ⟨t, c', rfl⟩
  · exact hne rfl
  rw [List.concat_eq_append] at hpre ht
  rw [← List.append_assoc] at hpre
  obtain ⟨hum, hc'⟩ := List.append_inj' hpre rfl
  obtain rfl : c = c' := (List.cons.inj hc').1
  have htpart : t <+: b :: rest := (List.prefix_append t [c]).trans ht
  have htne : t ≠ b :: rest := by
    rintro rfl
    have := ht.length_le
    rw [List.length_append, List.length_singleton] at this
    omega
  by_cases htnil : t = [] <;> by_cases hmnil : m = []
  · subst htnil hmnil
    exact hc ht
  · subst htnil
    rw [List.append_nil] at hum
    rw [← hum] at hq
    exact hq (dangling_append hu hmnil hm hm')
  · subst hmnil
    rw [List.append_nil] at hum
    rw [hum] at hu
    exact hu (dangling_append hq htnil htpart htne)
  · rw [← partial_unique hb hum hm hmnil htpart htnil] at ht
    exact hc ht

include hb in
/-- The partial marker at the end of a text. -/
theorem dangling_split_unique {u m u' m' : List UInt8} (h : u ++ m = u' ++ m') (hu : ¬ Dangling (b :: rest) u)
    (hm : m <+: b :: rest) (hm' : m ≠ b :: rest) (hu' : ¬ Dangling (b :: rest) u') (hm₁ : m' <+: b :: rest)
    (hm₁' : m' ≠ b :: rest) : m = m' := by
  by_cases hnil : m = [] <;> by_cases hnil' : m' = []
  · rw [hnil, hnil']
  · rw [hnil, List.append_nil] at h
    exact absurd (h ▸ dangling_append hu' hnil' hm₁ hm₁') hu
  · rw [hnil', List.append_nil] at h
    exact absurd (h ▸ dangling_append hu hnil hm hm') hu'
  · exact partial_unique hb h hm hnil hm₁ hnil'

/-- What the matcher has found in the text after `u`. -/
def SeekOk (tag u whole : List UInt8) : List UInt8 × (List UInt8 ⊕ List UInt8) → Prop
  | (pre, .inl m) =>
    whole = u ++ pre ++ m ∧ ¬ Dangling tag (u ++ pre) ∧ m <+: tag ∧ m ≠ tag ∧ ∀ j, ¬ SeenAt tag whole j
  | (pre, .inr after) => whole = u ++ pre ++ tag ++ after ∧ FirstSeen tag whole (u ++ pre).length

theorem SeekOk.push {tag u v whole : List UInt8} {r : List UInt8 × (List UInt8 ⊕ List UInt8)}
    (h : SeekOk tag (u ++ v) whole r) : SeekOk tag u whole (v ++ r.1, r.2) := by
  obtain ⟨pre, m | after⟩ := r
  · simpa only [SeekOk, List.append_assoc] using h
  · simpa only [SeekOk, List.append_assoc] using h

theorem length_lt_of_part {tag m : List UInt8} (hm : m <+: tag) (hm' : m ≠ tag) : m.length < tag.length := by
  rcases Nat.lt_or_ge m.length tag.length with h | h
  · exact h
  · exact absurd (hm.eq_of_length_le h) hm'

/-- Inside the partial match no occurrence is seen. -/
theorem not_seenAt_inside {tag u m : List UInt8} (hu : ¬ Dangling tag u) (hm : m <+: tag) (hm' : m ≠ tag) (s : List UInt8)
    {k : Nat} (hpos : 0 < k) (hk : k ≤ m.length) : ¬ SeenAt tag (u ++ m ++ s) (u.length + k) := by
  intro hseen
  refine hseen.2 ?_
  have hlt := length_lt_of_part hm hm'
  rw [List.append_assoc, List.take_length_add_append, List.take_append_of_le_length hk]
  refine dangling_append hu ?_ ((List.take_prefix k m).trans hm) ?_
  · intro h
    have := congrArg List.length h
    rw [List.length_take, List.length_nil] at this
    omega
  · intro h
    have := congrArg List.length h
    rw [List.length_take] at this
    omega

include hb in
theorem seek_ok (s m u : List UInt8) (hu : ¬ Dangling (b :: rest) u) (hm : m <+: b :: rest) (hm' : m ≠ b :: rest)
    (hnone : ∀ j < u.length, ¬ SeenAt (b :: rest) (u ++ m ++ s) j) :
    SeekOk (b :: rest) u (u ++ m ++ s) (seek (b :: rest) m s) := by
  induction s generalizing m u with
  | nil =>
    rw [seek, SeekOk, List.append_nil, List.append_nil]
    refine ⟨rfl, hu, hm, hm', fun j hseen => ?_⟩
    rcases Nat.lt_or_ge j u.length with hj | hj
    · rw [List.append_nil] at hnone
      exact hnone j hj hseen
    · have hlt := length_lt_of_part hm hm'
      have := hseen.1.length_le
      rw [List.length_drop, List.length_append] at this
      omega
  | cons c s ih =>
    have hwhole : u ++ m ++ c :: s = u ++ (m ++ [c]) ++ s := by simp
    unfold seek
    split
    · next h =>
      -- the marker is complete
      rw [hwhole] at hnone ⊢
      rw [h] at hnone ⊢
      rw [SeekOk, List.append_nil]
      refine ⟨rfl, ⟨?_, ?_⟩, hnone⟩
      · rw [List.append_assoc, List.drop_left]
        exact List.prefix_append ..
      · rw [List.append_assoc, List.take_left]
        exact hu
    · next hne =>
      split
      · next h =>
        rw [hwhole] at hnone ⊢
        exact ih (m ++ [c]) u hu h hne hnone
      · next h =>
        -- the part and the byte are passed on: no marker starts inside them
        have hnone' : ∀ j < (u ++ (m ++ [c])).length, ¬ SeenAt (b :: rest) (u ++ m ++ c :: s) j := by
          intro j hj
          rcases Nat.lt_trichotomy j u.length with hlt | rfl | hgt
          · exact hnone j hlt
          · intro hseen
            have hprefix := hseen.1
            rw [List.append_assoc, List.drop_left] at hprefix
            refine h (List.prefix_of_prefix_length_le ⟨s, by simp⟩ hprefix ?_)
            rw [List.length_append, List.length_singleton]
            exact length_lt_of_part hm hm'
          · obtain ⟨k, rfl⟩ := Nat.exists_eq_add_of_le (Nat.le_of_lt hgt)
            rw [List.length_append, List.length_append, List.length_singleton] at hj
            exact not_seenAt_inside hu hm hm' (c :: s) (by omega) (by omega)
        have hu' : ¬ Dangling (b :: rest) (u ++ (m ++ [c])) := by
          rw [← List.append_assoc]
          exact not_dangling_mismatch hb hu hm hm' h
        have hnil : u ++ (m ++ [c]) ++ [] ++ s = u ++ m ++ c :: s := by simp
        have hok := ih [] (u ++ (m ++ [c])) hu' (List.nil_prefix ..) nofun (by rw [hnil]; exact hnone')
        rw [hnil] at hok
        exact hok.push

include hb in
/-- The matcher from the start of a text. -/
theorem seek_start (s : List UInt8) : SeekOk (b :: rest) [] s (seek (b :: rest) [] s) :=
  seek_ok hb s [] [] (not_dangling_nil _) (List.nil_prefix ..) nofun nofun

end

theorem FirstSeen.unique {tag s : List UInt8} {i j : Nat} (hi : FirstSeen tag s i) (hj : FirstSeen tag s j) : i = j := by
  rcases Nat.lt_trichotomy i j with h | h | h
  · exact absurd hi.1 (hj.2 i h)
  · exact h
  · exact absurd hj.1 (hi.2 j h)

end BitForge.Lib
