/-
JSON texts with their white space, in a grammar that contains that of RFC 8259, and how the scanners of
the request parser run over them.
-/
import BitForge.Api.JsonParse

namespace BitForge.Api

open BitForge.Lib

/-! ## Runs of the cursor -/

theorem peek_runs (c : UInt8) (s : List UInt8) : Runs peek (c :: s) c (c :: s) := ⟨rfl, rfl⟩

theorem next_runs (c : UInt8) (s : List UInt8) : Runs next (c :: s) () s := ⟨rfl, rfl⟩

theorem peek_headD (s : List UInt8) : Runs peek s (s.headD 0) s := ⟨rfl, rfl⟩

/-- White space. -/
abbrev Ws := { w : List UInt8 // ∀ c ∈ w, c ≠ 0 ∧ c ≤ 0x20 }

/-- `skip_ws` stays where it is. -/
def NoWs (s : List UInt8) : Prop := s.headD 0 = 0 ∨ ¬ s.headD 0 ≤ 0x20

theorem noWs_cons {c : UInt8} (s : List UInt8) (hc : ¬ c ≤ 0x20) : NoWs (c :: s) := Or.inr hc

theorem skipWs_runs (w : Ws) {s : List UInt8} (hs : NoWs s) : Runs skipWs (w.1 ++ s) () s := by
  have hloop : ∀ {w : List UInt8}, (∀ c ∈ w, c ≠ 0 ∧ c ≤ 0x20) → Reaches List.length skipWsStep () (w ++ s) () s := by
    intro w
    induction w with
    | nil => exact fun _ => .refl () s
    | cons c w ih =>
      intro h
      refine .step (u := w ++ s) ?_ (Nat.lt_succ_self _) (ih fun d hd => h d (List.mem_cons_of_mem _ hd))
      unfold skipWsStep
      refine Runs.bind (peek_runs c (w ++ s)) ?_
      rw [if_pos (h c List.mem_cons_self)]
      exact Runs.bind (next_runs ..) Runs.ret
  refine (hloop w.2).runs ?_
  unfold skipWsStep
  refine Runs.bind (peek_headD s) ?_
  rw [if_neg fun h => hs.elim h.1 fun hgt => hgt h.2]
  exact Runs.ret

theorem skipWs_stays {s : List UInt8} (hs : NoWs s) : Runs skipWs s () s := skipWs_runs ⟨[], nofun⟩ hs

theorem expectChar_runs {c : UInt8} (hc : ¬ c ≤ 0x20) (w : Ws) (s : List UInt8) :
    Runs (expectChar c) (w.1 ++ c :: s) () s := by
  refine Runs.bind (skipWs_runs w (noWs_cons s hc)) (Runs.bind (peek_runs c s) ?_)
  rw [if_neg (not_not.2 rfl)]
  exact next_runs c s

/-! ## Strings -/

/-- A byte of a string that stands for itself. -/
def PlainByte (c : UInt8) : Prop := c ≠ 0 ∧ c ≠ quote ∧ c ≠ backslash

instance : DecidablePred PlainByte := fun c => inferInstanceAs (Decidable (c ≠ 0 ∧ c ≠ quote ∧ c ≠ backslash))

/-- A character of a string: a plain byte, an escape of one character, or a `\u` escape with its four digits. -/
inductive StrItem
  | plain (c : UInt8) (h : PlainByte c)
  | escape (c : UInt8) (h : c ≠ 0 ∧ c ≠ 0x75)
  | unicode (c₁ c₂ c₃ c₄ : UInt8) (h : ∀ c ∈ [c₁, c₂, c₃, c₄], PlainByte c)

namespace StrItem

def text : StrItem → List UInt8
  | plain c _ => [c]
  | escape c _ => [backslash, c]
  | unicode c₁ c₂ c₃ c₄ _ => [backslash, 0x75, c₁, c₂, c₃, c₄]

/-- The byte that `parse_string` stores. -/
def decoded : StrItem → UInt8
  | plain c _ => c
  | escape c _ => unescape c
  | unicode .. => 0x3F

end StrItem

abbrev Str := List StrItem

def Str.body (s : Str) : List UInt8 := s.flatMap StrItem.text

/-- The string between its quotes. -/
def Str.text (s : Str) : List UInt8 := quote :: s.body ++ [quote]

def Str.decoded (s : Str) : List UInt8 := s.map StrItem.decoded

theorem Str.text_append (s : Str) (rest : List UInt8) : s.text ++ rest = quote :: (s.body ++ quote :: rest) := by
  unfold Str.text
  rw [List.append_assoc]
  rfl

/-- What `push` leaves in the buffer. -/
def pushed (cap : Nat) (dst : List UInt8) (c : UInt8) : List UInt8 := if dst.length < cap - 1 then dst ++ [c] else dst

theorem push_runs (cap : Nat) (dst : List UInt8) (c : UInt8) (s : List UInt8) :
    Runs (push cap dst c) s (pushed cap dst c) s := by
  unfold push pushed
  split
  · exact Runs.bind Runs.emit Runs.ret
  · exact Runs.ret

theorem foldl_pushed {cap : Nat} : ∀ {l dst : List UInt8}, dst.length ≤ cap - 1 →
    l.foldl (pushed cap) dst = (dst ++ l).take (cap - 1)
  | [], dst, h => by
    rw [List.foldl_nil, List.append_nil, List.take_of_length_le h]
  | c :: l, dst, h => by
    rw [List.foldl_cons]
    by_cases hroom : dst.length < cap - 1
    · have hpush : pushed cap dst c = dst ++ [c] := if_pos hroom
      rw [hpush, foldl_pushed (by rw [List.length_append, List.length_singleton]; omega), List.append_assoc]
      rfl
    · have hpush : pushed cap dst c = dst := if_neg hroom
      have hlen : dst.length = cap - 1 := by omega
      rw [hpush, foldl_pushed h, List.take_append_of_le_length (Nat.le_of_eq hlen.symm),
        List.take_append_of_le_length (Nat.le_of_eq hlen.symm)]

theorem skipHex_runs (c c₁ c₂ c₃ c₄ : UInt8) (h : ∀ c ∈ [c₁, c₂, c₃, c₄], PlainByte c) (s : List UInt8) :
    Runs skipHex (c :: c₁ :: c₂ :: c₃ :: c₄ :: s) () (c₄ :: s) := by
  have hpeek : ∀ k d t, (c :: c₁ :: c₂ :: c₃ :: c₄ :: s).drop k = d :: t →
      Runs (peekAt k) (c :: c₁ :: c₂ :: c₃ :: c₄ :: s) d (c :: c₁ :: c₂ :: c₃ :: c₄ :: s) := by
    intro k d t hk
    refine ⟨?_, rfl⟩
    unfold peekAt
    rw [hk]
    rfl
  unfold skipHex
  refine Runs.bind (hpeek 1 c₁ _ rfl) ?_
  rw [if_pos (h c₁ (by simp)).1]
  refine Runs.bind (hpeek 2 c₂ _ rfl) ?_
  rw [if_pos (h c₂ (by simp)).1]
  refine Runs.bind (hpeek 3 c₃ _ rfl) ?_
  rw [if_pos (h c₃ (by simp)).1]
  refine Runs.bind (hpeek 4 c₄ _ rfl) ?_
  rw [if_pos (h c₄ (by simp)).1]
  exact ⟨rfl, rfl⟩

/-- An iteration of `parse_string` decodes one character of the string. -/
theorem parseStringStep_runs (cap : Nat) (dst : List UInt8) (item : StrItem) (rest : List UInt8) :
    Runs (parseStringStep cap dst) (item.text ++ rest) (.inl (pushed cap dst item.decoded)) rest := by
  have hend : ∀ c d, Runs (do
      let dst ← push cap dst c
      next
      pure (.inl dst) : Parser (List UInt8 ⊕ Option (List UInt8))) (d :: rest) (.inl (pushed cap dst c)) rest :=
    fun c d => Runs.bind (push_runs ..) (Runs.bind (next_runs ..) Runs.ret)
  unfold parseStringStep parseChar
  cases item with
  | plain c h =>
    refine Runs.bind (peek_runs c rest) ?_
    rw [if_pos ⟨h.1, h.2.1⟩, if_neg h.2.2]
    exact Runs.bind Runs.ret (hend c c)
  | escape c h =>
    refine Runs.bind (peek_runs backslash (c :: rest)) ?_
    rw [if_pos (by decide), if_pos rfl]
    refine Runs.bind (a := unescape c) (u := c :: rest) ?_ (hend _ c)
    refine Runs.bind (next_runs ..) (Runs.bind ⟨rfl, rfl⟩ (Runs.bind (peek_runs c rest) ?_))
    rw [if_neg h.2]
    exact Runs.ret
  | unicode c₁ c₂ c₃ c₄ h =>
    refine Runs.bind (peek_runs backslash (0x75 :: c₁ :: c₂ :: c₃ :: c₄ :: rest)) ?_
    rw [if_pos (by decide), if_pos rfl]
    refine Runs.bind (a := (0x3F : UInt8)) (u := c₄ :: rest) ?_ (hend _ c₄)
    refine Runs.bind (next_runs ..) (Runs.bind ⟨rfl, rfl⟩ (Runs.bind (peek_runs 0x75 _) ?_))
    rw [if_pos rfl]
    exact Runs.bind (skipHex_runs 0x75 c₁ c₂ c₃ c₄ h rest) Runs.ret

theorem StrItem.text_length_pos (item : StrItem) : 0 < item.text.length := by
  cases item <;> exact Nat.succ_pos _

theorem parseString_reaches (cap : Nat) (rest : List UInt8) : ∀ (s : Str) (dst : List UInt8),
    Reaches List.length (parseStringStep cap) dst (s.body ++ rest) (s.decoded.foldl (pushed cap) dst) rest
  | [], dst => .refl dst rest
  | item :: s, dst => by
    have hrun := parseStringStep_runs cap dst item (Str.body s ++ rest)
    rw [← List.append_assoc] at hrun
    refine .step hrun ?_ (parseString_reaches cap rest s _)
    have hpos := item.text_length_pos
    change (Str.body s ++ rest).length < (item.text ++ Str.body s ++ rest).length
    simp only [List.length_append]
    omega

/-- `parse_string` decodes a string into a buffer, as far as it has room, and stops behind the quote. -/
theorem parseString_runs (cap : Nat) (w : Ws) (s : Str) (rest : List UInt8) :
    Runs (parseString cap) (w.1 ++ s.text ++ rest) (some (s.decoded.take (cap - 1))) rest := by
  rw [List.append_assoc, Str.text_append]
  unfold parseString
  refine Runs.bind (skipWs_runs w (noWs_cons _ (by decide))) (Runs.bind (peek_runs ..) ?_)
  rw [if_neg (not_not.2 rfl)]
  refine Runs.bind (next_runs ..) ((parseString_reaches cap (quote :: rest) s []).runs ?_)
  unfold parseStringStep
  refine Runs.bind (peek_runs ..) ?_
  rw [if_neg fun h => h.2 rfl, if_neg (not_not.2 rfl), foldl_pushed (Nat.zero_le _), List.nil_append]
  exact Runs.bind (next_runs ..) (Runs.bind Runs.emit Runs.ret)

/-! ## Strings on the heap -/

/-- The first pass counts the digits of a `\u` escape; its count is no less than the bytes stored. -/
def StrItem.measured : StrItem → Nat
  | plain .. => 1
  | escape .. => 1
  | unicode .. => 5

theorem measureStep_plain {c : UInt8} (h : PlainByte c) (len : Nat) (rest : List UInt8) :
    Runs (measureStep len) (c :: rest) (.inl (len + 1)) rest := by
  unfold measureStep
  refine Runs.bind (peek_runs ..) ?_
  rw [if_pos ⟨h.1, h.2.1⟩, if_neg h.2.2]
  exact Runs.bind (next_runs ..) Runs.ret

theorem measureStep_escape {c : UInt8} (h : c ≠ 0) (len : Nat) (rest : List UInt8) :
    Runs (measureStep len) (backslash :: c :: rest) (.inl (len + 1)) rest := by
  unfold measureStep
  refine Runs.bind (peek_runs ..) ?_
  rw [if_pos (by decide), if_pos rfl]
  refine Runs.bind (next_runs ..) (Runs.bind (peek_runs ..) ?_)
  rw [if_neg h]
  exact Runs.bind (next_runs ..) Runs.ret

theorem measure_item (item : StrItem) (len : Nat) (rest : List UInt8) :
    Reaches List.length measureStep len (item.text ++ rest) (len + item.measured) rest := by
  have hlt : ∀ (c : UInt8) (l : List UInt8), l.length < (c :: l).length := fun c l => Nat.lt_succ_self _
  cases item with
  | plain c h => exact .one (measureStep_plain h len rest) (hlt ..)
  | escape c h => exact .one (measureStep_escape h.1 len rest) (Nat.lt_succ_of_lt (hlt ..))
  | unicode c₁ c₂ c₃ c₄ h =>
    refine .step (measureStep_escape (by decide) len _) (Nat.lt_succ_of_lt (hlt ..)) ?_
    refine .step (measureStep_plain (h c₁ (by simp)) _ _) (hlt ..) ?_
    refine .step (measureStep_plain (h c₂ (by simp)) _ _) (hlt ..) ?_
    refine .step (measureStep_plain (h c₃ (by simp)) _ _) (hlt ..) ?_
    exact .one (measureStep_plain (h c₄ (by simp)) _ _) (hlt ..)

theorem measure_reaches (rest : List UInt8) : ∀ (s : Str) (len : Nat),
    Reaches List.length measureStep len (s.body ++ rest) (len + (s.map StrItem.measured).sum) rest
  | [], len => .refl len rest
  | item :: s, len => by
    have hitem := measure_item item len (Str.body s ++ rest)
    have hrest := measure_reaches rest s (len + item.measured)
    rw [← List.append_assoc] at hitem
    rw [Nat.add_assoc] at hrest
    exact hitem.trans hrest

theorem length_le_measured : ∀ s : Str, s.length ≤ (s.map StrItem.measured).sum
  | [] => Nat.le_refl _
  | item :: s => by
    have hle := length_le_measured s
    have hpos : 1 ≤ item.measured := by cases item <;> simp [StrItem.measured]
    rw [List.map_cons, List.sum_cons, List.length_cons]
    omega

/-- `parse_string_heap` decodes the whole string. -/
theorem parseStringHeap_runs (w : Ws) (s : Str) (rest : List UInt8) :
    Runs parseStringHeap (w.1 ++ s.text ++ rest) (some s.decoded) rest := by
  unfold parseStringHeap
  have hmeasure : Runs (Prog.onCopy do
      next
      scan measureStep 0) (s.text ++ rest) (some (s.map StrItem.measured).sum) (s.text ++ rest) := by
    rw [Str.text_append]
    refine Runs.onCopy (u := quote :: rest) (Runs.bind (next_runs ..) ?_)
    have hloop := measure_reaches (quote :: rest) s 0
    rw [Nat.zero_add] at hloop
    refine hloop.runs ?_
    unfold measureStep
    refine Runs.bind (peek_runs ..) ?_
    rw [if_neg fun h => h.2 rfl, if_neg (not_not.2 rfl)]
    exact Runs.ret
  rw [List.append_assoc]
  rw [Str.text_append] at hmeasure ⊢
  refine Runs.bind (skipWs_runs w (noWs_cons _ (by decide))) (Runs.bind (peek_runs ..) ?_)
  rw [if_neg (not_not.2 rfl)]
  refine Runs.bind hmeasure ?_
  have hrun := parseString_runs ((s.map StrItem.measured).sum + 1) ⟨[], nofun⟩ s rest
  rw [List.nil_append, Str.text_append, List.take_of_length_le] at hrun
  · exact hrun
  · unfold Str.decoded
    rw [List.length_map]
    exact length_le_measured s

end BitForge.Api
