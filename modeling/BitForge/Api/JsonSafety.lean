/-
The cursor of the request parser stays in the body: every read, every place of the cursor and every
store of a run is inside, except where `parse_string` takes the NUL for the character of an escape.
-/
import BitForge.Api.JsonParse

namespace BitForge.Api

open BitForge.Lib

/-- A request body with what lies in memory behind its NUL. -/
structure Body where
  text : List UInt8
  noNul : 0 ∉ text
  behind : List UInt8

def Body.mem (b : Body) : List UInt8 := b.text ++ 0 :: b.behind

/-- What a step touches lies in the body or is its NUL; an escape goes past the byte it reads. -/
def JsonEvent.InBody (b : Body) : JsonEvent → Prop
  | .read left => b.behind.length < left
  | .cursor left => b.behind.length < left
  | .escape left => b.behind.length + 1 < left
  | .write i cap => i < cap

/-- The byte behind a backslash is not the NUL of the body. -/
def JsonEvent.EscapesByte (b : Body) : JsonEvent → Prop
  | .escape left => left ≠ b.behind.length + 1
  | .read _ | .cursor _ | .write _ _ => True

/-- Memory accesses of a run that ends are all inside. -/
structure StaysInBody {α : Type} (b : Body) (r : Logged JsonEvent (List UInt8) α) : Prop where
  ends : r.outcome ≠ .deep
  events : ∀ e ∈ r.log, e.InBody b

namespace Body

variable (b : Body)

def safe : Rely JsonEvent (List UInt8) where
  assumed e := b.text.getLast? = some backslash → e.EscapesByte b
  shown e := e.InBody b
  failed _ := True

/-- The cursor is in the body, with less than `n` bytes of memory from it on. -/
def Within (n : Nat) (s : List UInt8) : Prop := (∃ t, t <:+ b.text ∧ s = t ++ 0 :: b.behind) ∧ s.length < n

def Facing (n : Nat) (c : UInt8) (s : List UInt8) : Prop := b.Within n s ∧ s.headD 0 = c

variable {b} {n m : Nat} {c : UInt8} {s : List UInt8}

theorem Within.mono (h : b.Within n s) (hle : n ≤ m) : b.Within m s := ⟨h.1, Nat.lt_of_lt_of_le h.2 hle⟩

theorem Within.behind_lt (h : b.Within n s) : b.behind.length < s.length := by
  obtain ⟨⟨t, -, rfl⟩, -⟩ := h
  simp only [List.length_append, List.length_cons]
  omega

/-- Before a byte other than NUL there is a text left. -/
theorem Facing.cons (h : b.Facing n c s) (hc : c ≠ 0) : ∃ t, c :: t <:+ b.text ∧ s = c :: t ++ 0 :: b.behind := by
  obtain ⟨⟨⟨t, ht, rfl⟩, -⟩, hhead⟩ := h
  cases t with
  | nil => exact absurd hhead.symm hc
  | cons d t =>
    obtain rfl : d = c := hhead
    exact ⟨t, ht, rfl⟩

theorem Facing.tail (h : b.Facing n c s) (hc : c ≠ 0) : b.Within (n - 1) s.tail := by
  obtain ⟨t, ht, rfl⟩ := h.cons hc
  refine ⟨⟨t, (List.suffix_cons c t).trans ht, rfl⟩, ?_⟩
  have hlt := h.1.2
  simp only [List.cons_append, List.tail_cons, List.length_cons, List.length_append] at hlt ⊢
  omega

end Body

/-! ## The rules -/

section

variable {b : Body} {α β : Type} {n : Nat} {c : UInt8}

theorem peek_ok : Triple b.safe (b.Within n) peek fun c s => b.Facing n c s := by
  intro s hs _
  refine ⟨fun e he => ?_, hs, rfl⟩
  rw [List.mem_singleton.1 he]
  exact hs.behind_lt

theorem next_ok (hc : c ≠ 0) : Triple b.safe (b.Facing n c) next fun _ s => b.Within (n - 1) s := by
  intro s hs _
  have htail : b.Within (n - 1) (s.drop 1) := by
    rw [List.drop_one]
    exact hs.tail hc
  refine ⟨fun e he => ?_, htail⟩
  rw [List.mem_singleton.1 he]
  exact htail.behind_lt

theorem ok_pure {P : List UInt8 → Prop} {a : α} {Q : α → List UInt8 → Prop} (h : ∀ s, P s → Q a s) :
    Triple b.safe P (pure a) Q := Triple.ret h

theorem ok_fail {P : List UInt8 → Prop} {Q : α → List UInt8 → Prop} : Triple b.safe P Prog.fail Q :=
  Triple.fail fun _ _ => trivial

theorem scan_ok {f : α → Parser (α ⊕ β)} {I : α → Prop} {T : β → Prop}
    (hf : ∀ n a, I a → Triple b.safe (b.Within n) (f a)
      fun r s => Sum.elim (fun a' => I a' ∧ b.Within (n - 1) s) (fun x => T x ∧ b.Within n s) r)
    {a : α} (ha : I a) : Triple b.safe (b.Within n) (scan f a) fun x s => T x ∧ b.Within n s := by
  refine (Triple.loop (I := fun a s => I a ∧ b.Within n s) (fun k a => ?_) a).weaken (fun s hs => ⟨ha, hs⟩)
    fun _ _ h => h
  rintro s ⟨⟨hI, hs⟩, rfl⟩
  have hlt := hs.2
  refine (hf (s.length + 1) a hI).weaken (fun t ht => ht) ?_ s ⟨hs.1, Nat.lt_succ_self _⟩
  rintro (a' | x) t ht
  · exact ⟨⟨ht.1, ht.2.mono (by omega)⟩, ht.2.2⟩
  · exact ⟨ht.1, ht.2.mono (by omega)⟩

/-- A loop of which only the cursor matters. -/
theorem scan_ok' {f : α → Parser (α ⊕ β)}
    (hf : ∀ n a, Triple b.safe (b.Within n) (f a)
      fun r s => Sum.elim (fun _ => b.Within (n - 1) s) (fun _ => b.Within n s) r)
    {a : α} : Triple b.safe (b.Within n) (scan f a) fun _ s => b.Within n s := by
  refine (scan_ok (I := fun _ => True) (T := fun _ => True) (fun n a _ => ?_) trivial).weaken (fun _ h => h)
    fun _ _ h => h.2
  refine (hf n a).weaken (fun _ h => h) ?_
  rintro (a' | x) s hs
  · exact ⟨trivial, hs⟩
  · exact ⟨trivial, hs⟩

theorem skipWs_ok : Triple b.safe (b.Within n) skipWs fun _ s => b.Within n s := by
  refine scan_ok' fun n _ => ?_
  refine Triple.bind peek_ok fun c => ?_
  split
  · next hc => exact Triple.bind (next_ok hc.1) fun _ => ok_pure fun _ h => h
  · exact ok_pure fun _ h => h.1

theorem expectChar_ok (hc : c ≠ 0) : Triple b.safe (b.Within n) (expectChar c) fun _ s => b.Within (n - 1) s := by
  refine Triple.bind skipWs_ok fun _ => Triple.bind peek_ok fun d => ?_
  split
  · exact ok_fail
  · next hd =>
    obtain rfl : d = c := not_not.1 hd
    exact next_ok hc

theorem orFail_ok {r : Parser (Option α)} {P : List UInt8 → Prop} {Q : α → List UInt8 → Prop}
    (h : Triple b.safe P r fun o s => ∀ a, o = some a → Q a s) : Triple b.safe P (orFail r) Q := by
  refine Triple.bind h ?_
  rintro (_ | a)
  · exact ok_fail
  · exact ok_pure fun s hs => hs a rfl

/-! ## Strings -/

theorem push_ok {P : List UInt8 → Prop} {cap : Nat} {dst : List UInt8} (hdst : dst.length < cap) :
    Triple b.safe P (push cap dst c) fun dst' s => dst'.length < cap ∧ P s := by
  unfold push
  split
  · next hroom =>
    refine Triple.bind (Triple.emit fun s _ _ => ?_) fun _ => ok_pure fun s hs => ⟨?_, hs.1⟩
    · exact hdst
    · rw [List.length_append, List.length_singleton]
      omega
  · exact ok_pure fun s hs => ⟨hdst, hs⟩

/-- `k` bytes before the NUL are left. -/
def Body.Ahead (b : Body) (n k : Nat) (s : List UInt8) : Prop := b.Within n s ∧ b.behind.length + k < s.length

theorem Body.Facing.ahead {s : List UInt8} (h : b.Facing n c s) (hc : c ≠ 0) : b.Ahead n 1 s := by
  obtain ⟨t, -, rfl⟩ := h.cons hc
  refine ⟨h.1, ?_⟩
  simp only [List.length_cons, List.length_append]
  omega

theorem Body.Ahead.drop {s : List UInt8} {k : Nat} (h : b.Ahead n k s) :
    (∃ t, t <:+ b.text ∧ s.drop k = t ++ 0 :: b.behind) ∧ b.behind.length < (s.drop k).length := by
  obtain ⟨⟨⟨t, ht, rfl⟩, -⟩, hk⟩ := h
  simp only [List.length_append, List.length_cons] at hk
  refine ⟨⟨t.drop k, (List.drop_suffix k t).trans ht, List.drop_append_of_le_length (by omega)⟩, ?_⟩
  simp only [List.length_drop, List.length_append, List.length_cons]
  omega

theorem advance_ok {k : Nat} : Triple b.safe (b.Ahead n k) (advance k) fun _ s => b.Within (n - k) s := by
  intro s hs _
  obtain ⟨hsuffix, hlen⟩ := hs.drop
  refine ⟨fun e he => ?_, hsuffix, ?_⟩
  · rw [List.mem_singleton.1 he]
    exact hlen
  · have hlt := hs.1.2
    change (s.drop k).length < n - k
    rw [List.length_drop] at hlen ⊢
    omega

theorem peekAt_ok {k : Nat} : Triple b.safe (b.Ahead n k) (peekAt k)
    fun c s => b.Ahead n k s ∧ (c ≠ 0 → b.Ahead n (k + 1) s) := by
  intro s hs _
  obtain ⟨⟨t, ht, hdrop⟩, hlen⟩ := hs.drop
  refine ⟨fun e he => ?_, hs, fun hc => ⟨hs.1, ?_⟩⟩
  · rw [List.mem_singleton.1 he]
    exact hlen
  · cases t with
    | nil =>
      rw [hdrop] at hc
      exact absurd rfl hc
    | cons d t =>
      have hdlen := congrArg List.length hdrop
      simp only [List.length_drop, List.length_append, List.length_cons] at hdlen
      change b.behind.length + (k + 1) < s.length
      omega

theorem skipHex_ok : Triple b.safe (b.Ahead n 1) skipHex fun _ s => b.Ahead n 1 s := by
  unfold skipHex
  refine Triple.bind peekAt_ok fun c1 => ?_
  split
  case isFalse => exact ok_pure fun s hs => hs.1
  next h1 =>
  refine Triple.bind (peekAt_ok.weaken (fun s hs => hs.2 h1) fun _ _ h => h) fun c2 => ?_
  split
  case isFalse => exact ok_pure fun s hs => ⟨hs.1.1, by have := hs.1.2; omega⟩
  next h2 =>
  refine Triple.bind (peekAt_ok.weaken (fun s hs => hs.2 h2) fun _ _ h => h) fun c3 => ?_
  split
  case isFalse => exact ok_pure fun s hs => ⟨hs.1.1, by have := hs.1.2; omega⟩
  next h3 =>
  refine Triple.bind (peekAt_ok.weaken (fun s hs => hs.2 h3) fun _ _ h => h) fun c4 => ?_
  split
  case isFalse => exact ok_pure fun s hs => ⟨hs.1.1, by have := hs.1.2; omega⟩
  next h4 =>
  -- the cursor stops at the fourth digit, which is no NUL
  intro s hs hlog
  have hfive := hs.2 h4
  obtain ⟨hevents, hwithin⟩ := advance_ok s hs.1 hlog
  refine ⟨hevents, hwithin.mono (Nat.sub_le ..), ?_⟩
  have hlt := hfive.2
  change b.behind.length + 1 < (s.drop 4).length
  rw [List.length_drop]
  omega

/-- A backslash right before the NUL is the last byte of the body. -/
theorem next_backslash : Triple b.safe (b.Facing n backslash) next fun _ s =>
    b.Within (n - 1) s ∧ (s.length = b.behind.length + 1 → b.text.getLast? = some backslash) := by
  intro s hs hlog
  obtain ⟨hevents, hwithin⟩ := next_ok (by decide) s hs hlog
  refine ⟨hevents, hwithin, fun hlen => ?_⟩
  obtain ⟨t, ⟨pre, ht⟩, rfl⟩ := hs.cons (by decide)
  change (t ++ 0 :: b.behind).length = b.behind.length + 1 at hlen
  rw [List.length_append, List.length_cons] at hlen
  obtain rfl : t = [] := List.length_eq_zero_iff.1 (by omega)
  rw [← ht, List.getLast?_concat]

theorem parseEscape_ok : Triple b.safe (b.Facing n backslash) parseEscape fun _ s => b.Ahead (n - 1) 1 s := by
  have hescape : Triple b.safe (fun s => b.Within (n - 1) s ∧
      (s.length = b.behind.length + 1 → b.text.getLast? = some backslash)) atEscape fun _ s => b.Ahead (n - 1) 1 s := by
    rintro s ⟨hs, hlast⟩ hlog
    have hahead : b.behind.length + 1 < s.length := by
      have hlt := hs.behind_lt
      by_contra hle
      have hend : s.length = b.behind.length + 1 := by omega
      exact hlog _ (List.mem_singleton.2 rfl) (hlast hend) hend
    refine ⟨fun e he => ?_, hs, hahead⟩
    rw [List.mem_singleton.1 he]
    exact hahead
  refine Triple.bind next_backslash fun _ => Triple.bind hescape fun _ => ?_
  refine Triple.bind (r := peek) (Q := fun _ s => b.Ahead (n - 1) 1 s) ?_ fun c => ?_
  · intro s hs hlog
    exact ⟨(peek_ok s hs.1 hlog).1, hs⟩
  · split
    · exact Triple.bind skipHex_ok fun _ => ok_pure fun _ h => h
    · exact ok_pure fun _ h => h

theorem next_ahead : Triple b.safe (b.Ahead n 1) next fun _ s => b.Within (n - 1) s := advance_ok

theorem parseStringStep_ok {cap : Nat} {dst : List UInt8} (hdst : dst.length < cap) :
    Triple b.safe (b.Within n) (parseStringStep cap dst) fun r s =>
      Sum.elim (fun dst' => dst'.length < cap ∧ b.Within (n - 1) s) (fun _ => True ∧ b.Within n s) r := by
  refine Triple.bind peek_ok fun c => ?_
  split
  · next hc =>
    refine Triple.bind (Q := fun _ s => b.Ahead n 1 s) ?_ fun c' => ?_
    · unfold parseChar
      split
      · next hesc =>
        subst hesc
        exact parseEscape_ok.weaken (fun _ h => h) fun _ s h => ⟨h.1.mono (Nat.sub_le ..), h.2⟩
      · exact ok_pure fun s hs => hs.ahead hc.1
    · refine Triple.bind (push_ok hdst) fun dst' => ?_
      refine Triple.and_left fun hdst' => Triple.bind next_ahead fun _ => ok_pure fun s hs => ⟨hdst', hs⟩
  · split
    · exact ok_pure fun s hs => ⟨trivial, hs.1⟩
    · next hq =>
      have hc : c ≠ 0 := by
        rintro rfl
        exact hq (by decide)
      refine Triple.bind (next_ok hc) fun _ => Triple.bind (Triple.emit fun s _ _ => ?_) fun _ => ok_pure fun s hs => ?_
      · exact hdst
      · exact ⟨trivial, hs.1.mono (Nat.sub_le ..)⟩

theorem parseString_ok {cap : Nat} (hcap : 0 < cap) : Triple b.safe (b.Within n) (parseString cap) fun r s =>
    b.Within n s ∧ ∀ a, r = some a → b.Within (n - 1) s := by
  refine Triple.bind skipWs_ok fun _ => Triple.bind peek_ok fun c => ?_
  split
  · exact ok_pure fun s hs => ⟨hs.1, nofun⟩
  · next hq =>
    have hc : c ≠ 0 := by
      rintro rfl
      exact hq (by decide)
    refine Triple.bind (next_ok hc) fun _ => ?_
    refine (scan_ok (I := fun dst => dst.length < cap) (T := fun _ => True)
      (fun n dst hdst => parseStringStep_ok hdst) hcap).weaken (fun _ h => h) fun r s h => ?_
    exact ⟨h.2.mono (Nat.sub_le ..), fun _ _ => h.2⟩

theorem measureStep_ok {len : Nat} : Triple b.safe (b.Within n) (measureStep len) fun r s =>
    Sum.elim (fun _ => b.Within (n - 1) s) (fun _ => b.Within n s) r := by
  refine Triple.bind peek_ok fun c => ?_
  split
  · next hc =>
    split
    · refine Triple.bind (next_ok hc.1) fun _ => Triple.bind peek_ok fun d => ?_
      split
      · exact ok_pure fun s hs => hs.1.mono (Nat.sub_le ..)
      · next hd =>
        exact Triple.bind (next_ok hd) fun _ => ok_pure fun s hs => hs.mono (Nat.sub_le ..)
    · exact Triple.bind (next_ok hc.1) fun _ => ok_pure fun s hs => hs
  · split
    · exact ok_pure fun s hs => hs.1
    · exact ok_pure fun s hs => hs.1

theorem parseStringHeap_ok : Triple b.safe (b.Within n) parseStringHeap fun r s =>
    b.Within n s ∧ ∀ a, r = some a → b.Within (n - 1) s := by
  refine Triple.bind skipWs_ok fun _ => Triple.bind peek_ok fun c => ?_
  split
  · exact ok_pure fun s hs => ⟨hs.1, nofun⟩
  · next hq =>
    have hc : c ≠ 0 := by
      rintro rfl
      exact hq (by decide)
    refine Triple.bind (Triple.onCopy (T := fun _ => True) (Q := fun _ s => b.Within (n - 1) s) ?_ (fun _ _ _ => trivial)
      fun _ _ => trivial) fun len => ?_
    · exact Triple.bind (next_ok hc) fun _ => scan_ok' fun n len => measureStep_ok
    · cases len with
      | none => exact ok_pure fun s hs => ⟨hs.1.1, nofun⟩
      | some len => exact (parseString_ok (Nat.succ_pos len)).weaken (fun s hs => hs.1.1) fun _ _ h => h

theorem orFail_string_ok {r : Parser (Option α)}
    (h : Triple b.safe (b.Within n) r fun r s => b.Within n s ∧ ∀ a, r = some a → b.Within (n - 1) s) :
    Triple b.safe (b.Within n) (orFail r) fun _ s => b.Within (n - 1) s :=
  orFail_ok (h.weaken (fun _ h => h) fun _ _ h => h.2)

/-! ## Numbers, booleans and skipped values -/

theorem parseNumber_ok : Triple b.safe (b.Within n) parseNumber fun _ s => b.Within n s := by
  refine Triple.bind skipWs_ok fun _ => ?_
  refine (scan_ok (I := fun buf => buf.length < 64) (T := fun _ => True) (fun n buf hbuf => ?_) (by decide)).weaken
    (fun _ h => h) fun _ _ h => h.2
  refine Triple.bind peek_ok fun c => ?_
  split
  · next hc =>
    refine Triple.bind (push_ok hbuf) fun buf' => Triple.and_left fun hbuf' => ?_
    exact Triple.bind (next_ok hc.1) fun _ => ok_pure fun s hs => ⟨hbuf', hs⟩
  · refine Triple.bind (Triple.emit fun s _ _ => ?_) fun _ => ok_pure fun s hs => ⟨trivial, hs.1.1⟩
    exact hbuf

theorem strncmpEq_ok : ∀ {lit : List UInt8} {l : Nat}, 0 ∉ lit →
    Triple b.safe (fun s => b.Within n s ∧ s.length = l) (strncmpEq lit) fun r s =>
      r = true → b.behind.length + lit.length < l ∧ b.behind.length < s.length ∧ s.length + lit.length = l
  | [], l, _ => ok_pure fun s hs _ => ⟨by have := hs.1.behind_lt; have := hs.2; simp only [List.length_nil]; omega,
      hs.1.behind_lt, hs.2⟩
  | c :: lit, l, hlit => by
    obtain ⟨hc, hlit'⟩ := not_or.1 (mt List.mem_cons.2 hlit)
    refine Triple.bind (r := peek) (Q := fun d s => b.Facing n d s ∧ s.length = l) (fun s hs hlog => ?_) fun d => ?_
    · obtain ⟨hevents, hfacing⟩ := peek_ok s hs.1 hlog
      exact ⟨hevents, hfacing, hs.2⟩
    split
    · next hd =>
      subst hd
      refine Triple.bind (r := next) (Q := fun _ s => b.Within n s ∧ s.length = l - 1) (fun s hs hlog => ?_) fun _ => ?_
      · obtain ⟨hfacing, rfl⟩ := hs
        obtain ⟨hevents, hwithin⟩ := next_ok (Ne.symm hc) s hfacing hlog
        exact ⟨hevents, hwithin.mono (Nat.sub_le ..), List.length_drop⟩
      · refine (strncmpEq_ok hlit').weaken (fun _ h => h) fun r s hs hr => ?_
        obtain ⟨hlt, hbehind, hlen⟩ := hs hr
        simp only [List.length_cons]
        omega
    · exact ok_pure fun s hs => nofun

theorem strncmp_ok {lit : List UInt8} (hlit : 0 ∉ lit) : Triple b.safe (b.Within n) (Prog.onCopy (strncmpEq lit))
    fun r s => b.Within n s ∧ (r = true → b.Ahead n lit.length s) := by
  intro s hs
  refine (Triple.onCopy (T := fun r => r = true → b.behind.length + lit.length < s.length) (strncmpEq_ok hlit)
    (fun r t ht hr => (ht hr).1) fun _ _ => trivial).weaken (fun t ht => ht) (fun r t ht => ?_) s
    (⟨hs, rfl⟩ : b.Within n s ∧ s.length = s.length)
  exact ⟨ht.1.1, fun hr => ⟨ht.1.1, by have := ht.2 hr; have := ht.1.2; omega⟩⟩

theorem parseBool_ok : Triple b.safe (b.Within n) parseBool fun _ s => b.Within n s := by
  refine Triple.bind skipWs_ok fun _ => Triple.bind (strncmp_ok (by decide)) fun r => ?_
  cases r with
  | true =>
    rw [if_pos rfl]
    refine Triple.bind (advance_ok.weaken (fun s hs => hs.2 rfl) fun _ _ h => h) fun _ => ok_pure fun s hs => ?_
    exact hs.mono (Nat.sub_le ..)
  | false =>
    rw [if_neg nofun]
    refine Triple.bind ((strncmp_ok (by decide)).weaken (fun s hs => hs.1) fun _ _ h => h) fun r => ?_
    cases r with
    | true =>
      rw [if_pos rfl]
      refine Triple.bind (advance_ok.weaken (fun s hs => hs.2 rfl) fun _ _ h => h) fun _ => ok_pure fun s hs => ?_
      exact hs.mono (Nat.sub_le ..)
    | false =>
      rw [if_neg nofun]
      exact ok_pure fun s hs => hs.1

/-- A string starts at the cursor: `parse_string` goes past its quote whatever follows. -/
theorem parseString_at_quote {cap : Nat} (hcap : 0 < cap) :
    Triple b.safe (b.Facing n quote) (parseString cap) fun _ s => b.Within (n - 1) s := by
  have hstay : Triple b.safe (b.Facing n quote) skipWs fun _ s => b.Facing n quote s := by
    refine Triple.loop (I := fun _ s => b.Facing n quote s) (fun k _ => ?_) ()
    refine Triple.bind (r := peek) (Q := fun c s => c = quote ∧ b.Facing n quote s) (fun s hs hlog => ?_) fun c => ?_
    · exact ⟨(peek_ok s hs.1.1 hlog).1, hs.1.2, hs.1⟩
    · refine Triple.and_left fun hc => ?_
      subst hc
      exact ok_pure fun s hs => hs
  refine Triple.bind hstay fun _ => ?_
  refine Triple.bind (r := peek) (Q := fun c s => c = quote ∧ b.Facing n quote s) (fun s hs hlog => ?_) fun c => ?_
  · exact ⟨(peek_ok s hs.1 hlog).1, hs.2, hs⟩
  · refine Triple.and_left fun hc => ?_
    subst hc
    refine Triple.bind (next_ok (by decide)) fun _ => ?_
    exact (scan_ok (I := fun dst => dst.length < cap) (T := fun _ => True)
      (fun n dst hdst => parseStringStep_ok hdst) hcap).weaken (fun _ h => h) fun r s h => h.2

theorem skipNested_ok {opening closing : UInt8} {depth : Int} :
    Triple b.safe (b.Within n) (scan (skipNestedStep opening closing) depth) fun _ s => b.Within n s := by
  refine scan_ok' fun n depth => Triple.bind peek_ok fun c => ?_
  split
  · exact ok_pure fun s hs => hs.1
  next hc =>
  split
  · exact Triple.bind (next_ok hc) fun _ => ok_pure fun s hs => hs
  split
  · refine Triple.bind (next_ok hc) fun _ => ?_
    split
    · exact ok_pure fun s hs => hs.mono (Nat.sub_le ..)
    · exact ok_pure fun s hs => hs
  split
  · next hq =>
    subst hq
    exact Triple.bind (parseString_at_quote (by decide)) fun _ => ok_pure fun s hs => hs
  · exact Triple.bind (next_ok hc) fun _ => ok_pure fun s hs => hs

theorem skipValue_ok : Triple b.safe (b.Within n) skipValue fun _ s => b.Within n s := by
  refine Triple.bind skipWs_ok fun _ => Triple.bind peek_ok fun c => ?_
  have hforget : ∀ s, b.Facing n c s → b.Within n s := fun _ h => h.1
  split
  · refine Triple.bind ((parseString_ok (by decide)).weaken hforget fun _ _ h => h) fun _ => ok_pure fun s hs => hs.1
  split
  · exact skipNested_ok.weaken hforget fun _ _ h => h
  split
  · exact skipNested_ok.weaken hforget fun _ _ h => h
  · refine (scan_ok' fun n _ => ?_).weaken hforget fun _ _ h => h
    refine Triple.bind peek_ok fun c => ?_
    split
    · next hc => exact Triple.bind (next_ok hc.1) fun _ => ok_pure fun _ h => h
    · exact ok_pure fun _ h => h.1

/-! ## Objects, messages and the request -/

theorem skipComma_ok : Triple b.safe (b.Within n) skipComma fun _ s => b.Within n s := by
  refine Triple.bind skipWs_ok fun _ => Triple.bind peek_ok fun c => ?_
  split
  · next hc =>
    subst hc
    exact (next_ok (by decide)).weaken (fun _ h => h) fun _ s hs => hs.mono (Nat.sub_le ..)
  · exact ok_pure fun s hs => hs.1

theorem skipCommaWs_ok : Triple b.safe (b.Within n) skipCommaWs fun _ s => b.Within n s := by
  refine Triple.bind skipWs_ok fun _ => Triple.bind peek_ok fun c => ?_
  split
  · next hc =>
    subst hc
    refine Triple.bind (next_ok (by decide)) fun _ => ?_
    exact skipWs_ok.weaken (fun s hs => hs.mono (Nat.sub_le ..)) fun _ _ h => h
  · exact ok_pure fun s hs => hs.1

/-- The loop over the fields of an object, whatever is done with them. -/
theorem fields_ok {cap : Nat} (hcap : 0 < cap) {field : List UInt8 → α → Parser α}
    (hfield : ∀ n key a, Triple b.safe (b.Within n) (field key a) fun _ s => b.Within n s) {a : α} :
    Triple b.safe (b.Within n) (scan (fieldStep cap field) a) fun _ s => b.Within n s := by
  refine scan_ok' fun n a => Triple.bind peek_ok fun c => ?_
  split
  · refine Triple.bind (skipWs_ok.weaken (fun _ h => h.1) fun _ _ h => h) fun _ => Triple.bind peek_ok fun d => ?_
    split
    · exact ok_pure fun s hs => hs.1
    · refine Triple.bind ((orFail_string_ok (parseString_ok hcap)).weaken (fun _ h => h.1) fun _ _ h => h) fun key => ?_
      refine Triple.bind (expectChar_ok (by decide)) fun _ => Triple.bind skipWs_ok fun _ => ?_
      refine Triple.bind (hfield _ key a) fun a' => Triple.bind skipComma_ok fun _ => ok_pure fun s hs => ?_
      exact hs.mono (Nat.sub_le ..)
  · exact ok_pure fun s hs => hs.1

theorem imageUrlField_ok {key : List UInt8} {msg : ChatMessage} :
    Triple b.safe (b.Within n) (imageUrlField key msg) fun _ s => b.Within n s := by
  unfold imageUrlField
  split
  · exact Triple.bind (orFail_string_ok parseStringHeap_ok) fun _ => ok_pure fun s hs => hs.mono (Nat.sub_le ..)
  · exact Triple.bind skipValue_ok fun _ => ok_pure fun _ h => h

theorem partField_ok {key : List UInt8} {msg : ChatMessage} :
    Triple b.safe (b.Within n) (partField key msg) fun _ s => b.Within n s := by
  unfold partField
  split
  · exact Triple.bind (orFail_string_ok parseStringHeap_ok) fun _ => ok_pure fun s hs => hs.mono (Nat.sub_le ..)
  · refine Triple.bind (r := atImageObject key)
      (Q := fun r s => b.Within n s ∧ (r = true → b.Facing n openBrace s)) ?_ fun r => ?_
    · unfold atImageObject
      split
      · refine Triple.bind peek_ok fun c => ok_pure fun s hs => ⟨hs.1, fun hc => ?_⟩
        rwa [beq_iff_eq.1 hc] at hs
      · exact ok_pure fun s hs => ⟨hs, nofun⟩
    · cases r with
      | true =>
        rw [if_pos rfl]
        refine Triple.bind ((next_ok (by decide)).weaken (fun s hs => hs.2 rfl) fun _ _ h => h) fun _ => ?_
        refine Triple.bind (fields_ok (by decide) fun n key msg => imageUrlField_ok) fun msg => ?_
        exact Triple.bind (expectChar_ok (by decide)) fun _ => ok_pure fun s hs => hs.mono (by omega)
      | false =>
        rw [if_neg nofun]
        refine Triple.bind (skipValue_ok.weaken (fun s hs => hs.1) fun _ _ h => h) fun _ => ok_pure fun _ h => h

theorem parseContentParts_ok {msg : ChatMessage} :
    Triple b.safe (b.Within n) (parseContentParts msg) fun _ s => b.Within n s := by
  refine Triple.bind (expectChar_ok (by decide)) fun _ => Triple.bind skipWs_ok fun _ => ?_
  refine Triple.bind (scan_ok' fun n msg => ?_) fun msg => ?_
  · refine Triple.bind peek_ok fun c => ?_
    split
    · refine Triple.bind ((expectChar_ok (by decide)).weaken (fun _ h => h.1) fun _ _ h => h) fun _ => ?_
      refine Triple.bind (fields_ok (by decide) fun n key msg => partField_ok) fun msg => ?_
      refine Triple.bind (expectChar_ok (by decide)) fun _ => Triple.bind skipCommaWs_ok fun _ => ok_pure fun s hs => ?_
      exact hs.mono (Nat.sub_le ..)
    · exact ok_pure fun s hs => hs.1
  · exact Triple.bind (expectChar_ok (by decide)) fun _ => ok_pure fun s hs => hs.mono (by omega)

theorem messageField_ok {key : List UInt8} {msg : ChatMessage} :
    Triple b.safe (b.Within n) (messageField key msg) fun _ s => b.Within n s := by
  unfold messageField
  split
  · refine Triple.bind (orFail_string_ok (parseString_ok (by decide))) fun _ => ok_pure fun s hs => ?_
    exact hs.mono (Nat.sub_le ..)
  split
  · refine Triple.bind skipWs_ok fun _ => Triple.bind peek_ok fun c => ?_
    split
    · exact parseContentParts_ok.weaken (fun _ h => h.1) fun _ _ h => h
    · refine Triple.bind ((orFail_string_ok parseStringHeap_ok).weaken (fun _ h => h.1) fun _ _ h => h) fun _ => ?_
      exact ok_pure fun s hs => hs.mono (Nat.sub_le ..)
  · exact Triple.bind skipValue_ok fun _ => ok_pure fun _ h => h

theorem parseMessages_ok {messages : List ChatMessage} :
    Triple b.safe (b.Within n) (parseMessages messages) fun _ s => b.Within n s := by
  refine Triple.bind (expectChar_ok (by decide)) fun _ => Triple.bind skipWs_ok fun _ => ?_
  refine Triple.bind (scan_ok' fun n messages => ?_) fun messages => ?_
  · refine Triple.bind peek_ok fun c => ?_
    split
    · refine Triple.bind ((expectChar_ok (by decide)).weaken (fun _ h => h.1) fun _ _ h => h) fun _ => ?_
      split
      · refine Triple.bind (scan_ok' fun n _ => ?_) fun _ => ok_pure fun s hs => hs.mono (Nat.sub_le ..)
        refine Triple.bind peek_ok fun c => ?_
        split
        · next hc => exact Triple.bind (next_ok hc.1) fun _ => ok_pure fun _ h => h
        · exact ok_pure fun _ h => h.1
      · refine Triple.bind (fields_ok (by decide) fun n key msg => messageField_ok) fun msg => ?_
        refine Triple.bind (expectChar_ok (by decide)) fun _ => Triple.bind skipCommaWs_ok fun _ => ?_
        exact ok_pure fun s hs => hs.mono (Nat.sub_le ..)
    · exact ok_pure fun s hs => hs.1
  · exact Triple.bind (expectChar_ok (by decide)) fun _ => ok_pure fun s hs => hs.mono (by omega)

variable {F : Type} {atof : Atof F}

theorem requestField_ok {key : List UInt8} {req : ChatRequest F} :
    Triple b.safe (b.Within n) (requestField atof key req) fun _ s => b.Within n s := by
  have hbool : Triple b.safe (b.Within n) (orFail parseBool) fun _ s => b.Within n s :=
    orFail_ok (parseBool_ok.weaken (fun _ h => h) fun _ _ h _ _ => h)
  unfold requestField
  split
  · refine Triple.bind (orFail_string_ok (parseString_ok (by decide))) fun _ => ok_pure fun s hs => ?_
    exact hs.mono (Nat.sub_le ..)
  split
  · exact Triple.bind parseMessages_ok fun _ => ok_pure fun _ h => h
  split
  · exact Triple.bind parseNumber_ok fun _ => ok_pure fun _ h => h
  split
  · exact Triple.bind parseNumber_ok fun _ => ok_pure fun _ h => h
  split
  · exact Triple.bind parseNumber_ok fun _ => ok_pure fun _ h => h
  split
  · exact Triple.bind hbool fun _ => ok_pure fun _ h => h
  · exact Triple.bind skipValue_ok fun _ => ok_pure fun _ h => h

theorem chatRequestParse_ok {req : ChatRequest F} :
    Triple b.safe (b.Within n) (chatRequestParse atof req) fun _ s => b.Within n s := by
  refine Triple.bind skipWs_ok fun _ => Triple.bind peek_ok fun c => ?_
  split
  · exact ok_fail
  · next hc =>
    obtain rfl : c = openBrace := not_not.1 hc
    refine Triple.bind (next_ok (by decide)) fun _ => ?_
    exact (fields_ok (by decide) fun n key req => requestField_ok).weaken (fun _ h => h) fun _ s hs =>
      hs.mono (Nat.sub_le ..)

end

/-- A run of the request parser stays in the body exactly if no escape of a string that `parse_string`
reads is cut off by the NUL; a body that does not end in a backslash has no such escape. -/
theorem chatRequestParse_in_body_iff {F : Type} (atof : Atof F) (req : ChatRequest F) (b : Body) :
    StaysInBody b (chatRequestParse atof req b.mem) ↔
      (b.text.getLast? = some backslash → ∀ e ∈ (chatRequestParse atof req b.mem).log, e.EscapesByte b) := by
  constructor
  · intro h _ e he
    have hin := h.events e he
    cases e with
    | escape left =>
      change left ≠ b.behind.length + 1
      change b.behind.length + 1 < left at hin
      omega
    | read left => exact trivial
    | cursor left => exact trivial
    | write i cap => exact trivial
  · intro h
    have hwithin : b.Within (b.mem.length + 1) b.mem := ⟨⟨b.text, List.suffix_rfl, rfl⟩, Nat.lt_succ_self _⟩
    obtain ⟨hevents, hends⟩ := chatRequestParse_ok _ hwithin fun e he hlast => h hlast e he
    refine ⟨fun hdeep => ?_, hevents⟩
    rw [hdeep] at hends
    exact hends

/-- A body that ends behind the backslash of a key. -/
def cutKeyBody : Body where
  text := ascii "\x7b\x22a\x5c"
  noNul := by decide
  behind := []

/-- The cursor steps over the NUL of that body and reads behind it. -/
theorem escape_past_nul :
    ¬ ∀ (atof : Atof Unit) (req : ChatRequest Unit) (b : Body), StaysInBody b (chatRequestParse atof req b.mem) := by
  intro h
  let atof : Atof Unit := ⟨(), fun _ => (), fun _ => 0⟩
  have hread : JsonEvent.read 0 ∈ (chatRequestParse atof (chatRequestInit atof) cutKeyBody.mem).log := by
    decide +kernel
  exact absurd ((h atof (chatRequestInit atof) cutKeyBody).events _ hread) (Nat.not_lt_zero _)

end BitForge.Api
