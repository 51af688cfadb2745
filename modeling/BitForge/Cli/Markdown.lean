/-
Markdown in streamed answers, `cli/md_render.c`: the renderer over a buffer of what is not decided yet, and the constructs of
a whole text. Allocation succeeds.
-/
import BitForge.Lib.CString

namespace BitForge.Cli

open BitForge.Lib

/-! ## The renderer -/

inductive Marker where
  | fence
  | bold
  | code
deriving DecidableEq, Repr

def Marker.text : Marker → List UInt8
  | fence => [96, 96, 96]
  | bold => [42, 42]
  | code => [96]

/-- `TN_ANSI_GREEN`, `TN_ANSI_BOLD`, `TN_ANSI_CYAN` -/
def Marker.style : Marker → List UInt8
  | fence => 27 :: ascii "[32m"
  | bold => 27 :: ascii "[1m"
  | code => 27 :: ascii "[36m"

/-- `TN_ANSI_RESET` -/
def ansiReset : List UInt8 := 27 :: ascii "[0m"

/-- `md_find` -/
def mdFind (buf needle : List UInt8) (start : Nat) : Option Nat := (strstr (buf.drop start) needle).map (start + ·)

/-- `md_find_single_backtick`, after so many more bytes of a fence. -/
def mdFindSingleBacktick : Nat → List UInt8 → Option Nat
  | _, [] => none
  | skip + 1, _ :: s => (mdFindSingleBacktick skip s).map (· + 1)
  | 0, c :: s =>
    if c ≠ 96 then (mdFindSingleBacktick 0 s).map (· + 1)
    else if [96, 96].isPrefixOf s then (mdFindSingleBacktick 2 s).map (· + 1)
    else some 0

/-- A candidate comes before the best one so far. -/
def earlier (best : Option (Nat × Marker)) (pos : Option Nat) (m : Marker) : Option (Nat × Marker) :=
  match pos, best with
  | none, best => best
  | some p, none => some (p, m)
  | some p, some (q, m') => if p < q then some (p, m) else some (q, m')

/-- The earliest candidate opening marker. -/
def opening (buf : List UInt8) : Option (Nat × Marker) :=
  earlier (earlier (earlier none (mdFind buf Marker.fence.text 0) .fence) (mdFind buf Marker.bold.text 0) .bold)
    (mdFindSingleBacktick 0 buf) .code

/-- `md_emit_styled` -/
def mdEmitStyled (color : Bool) (s : List UInt8) (m : Marker) : List UInt8 :=
  (if color then m.style else []) ++ s ++ (if color then ansiReset else [])

/-- `md_process`: what is written, and what stays in the buffer. -/
def mdProcess (color : Bool) : Nat → List UInt8 → List UInt8 × List UInt8
  | 0, buf => ([], buf)
  | fuel + 1, buf =>
    match opening buf with
    | none =>
      let holdBack := if buf.length > 2 then 2 else buf.length
      (buf.take (buf.length - holdBack), buf.drop (buf.length - holdBack))
    | some (pos, m) =>
      match mdFind buf m.text (pos + m.text.length) with
      | none => if buf.length - pos > 4096 then (buf, []) else (buf.take pos, buf.drop pos)
      | some close =>
        let contentStart := pos + m.text.length
        let content := (buf.drop contentStart).take (close - contentStart)
        let rest := mdProcess color fuel (buf.drop (close + m.text.length))
        (buf.take pos ++ mdEmitStyled color content m ++ rest.1, rest.2)

/-- `md_render_feed`: what is written, and the buffer. -/
def mdRenderFeed (color : Bool) (buf piece : List UInt8) : List UInt8 × List UInt8 :=
  if piece = [] then ([], buf) else mdProcess color ((buf ++ piece).length + 1) (buf ++ piece)

/-- Pieces one after the other. -/
def feedAll (color : Bool) : List UInt8 → List (List UInt8) → List UInt8 × List UInt8
  | buf, [] => ([], buf)
  | buf, piece :: pieces =>
    let r := mdRenderFeed color buf piece
    let rest := feedAll color r.2 pieces
    (r.1 ++ rest.1, rest.2)

/-- What is written of the pieces with `md_render_flush` behind them. -/
def rendered (color : Bool) (pieces : List (List UInt8)) : List UInt8 :=
  (feedAll color [] pieces).1 ++ (feedAll color [] pieces).2

/-! ## The constructs of a text -/

/-- The marker that a text starts with. -/
def markerAt (s : List UInt8) : Option Marker :=
  if Marker.fence.text.isPrefixOf s then some .fence
  else if Marker.bold.text.isPrefixOf s then some .bold
  else if Marker.code.text.isPrefixOf s then some .code
  else none

/-- A byte outside of constructs, a complete construct, or one that is not closed in the text. -/
inductive Span where
  | plain (c : UInt8)
  | styled (m : Marker) (content : List UInt8)
  | opened (m : Marker) (s : List UInt8)
deriving DecidableEq, Repr

/-- The text from left to right: each construct ends with the first closing marker. -/
def spans (s : List UInt8) : List Span :=
  match s with
  | [] => []
  | c :: tail =>
    match markerAt (c :: tail) with
    | none => .plain c :: spans tail
    | some m =>
      let inside := (c :: tail).drop m.text.length
      match strstr inside m.text with
      | none => [.opened m (c :: tail)]
      | some i => .styled m (inside.take i) :: spans (inside.drop (i + m.text.length))
termination_by s.length
decreasing_by
  · simp
  · cases m <;> simp [Marker.text]

namespace Span

/-- The bytes of the text. -/
def source : Span → List UInt8
  | plain c => [c]
  | styled m content => m.text ++ content ++ m.text
  | opened _ s => s

/-- The bytes without the markers of a complete construct. -/
def shown : Span → List UInt8
  | plain c => [c]
  | styled _ content => content
  | opened _ s => s

/-- The bytes with colors. -/
def render (color : Bool) : Span → List UInt8
  | plain c => [c]
  | styled m content => mdEmitStyled color content m
  | opened _ s => s

/-- For how many bytes the construct stays open. -/
def openFor : Span → Nat
  | plain _ => 0
  | styled m content => m.text.length + content.length + m.text.length - 1
  | opened _ s => s.length

def IsFence : Span → Prop
  | plain _ => False
  | styled m _ => m = .fence
  | opened m _ => m = .fence

def IsStyled : Span → Prop
  | styled _ _ => True
  | _ => False

end Span

/-- No construct stays open for more than 4096 bytes. -/
def Short (text : List UInt8) : Prop := ∀ sp ∈ spans text, sp.openFor ≤ 4096

/-- No code fence opens outside of constructs. -/
def NoFence (text : List UInt8) : Prop := ∀ sp ∈ spans text, ¬ sp.IsFence

/-- A way to cut a text into pieces that are not empty. -/
def Cut (pieces : List (List UInt8)) (text : List UInt8) : Prop := pieces.flatten = text ∧ ∀ p ∈ pieces, p ≠ []

/-- What is written does not depend on the cut, and without colors it is the text less the markers of complete constructs. -/
structure ChunkIndependent (text : List UInt8) : Prop where
  same : ∀ color pieces pieces', Cut pieces text → Cut pieces' text → rendered color pieces = rendered color pieces'
  markersOnly : ∀ pieces, Cut pieces text → rendered false pieces = (spans text).flatMap Span.shown

/-! ## Opening markers -/

theorem markerAt_eq_some {s : List UInt8} {m : Marker} (h : markerAt s = some m) : m.text <+: s := by
  unfold markerAt at h
  split_ifs at h with hfence hbold hcode
  · cases h
    exact List.isPrefixOf_iff_prefix.1 hfence
  · cases h
    exact List.isPrefixOf_iff_prefix.1 hbold
  · cases h
    exact List.isPrefixOf_iff_prefix.1 hcode

theorem markerAt_backtick (s : List UInt8) : markerAt (96 :: s) = some (if [96, 96].isPrefixOf s then .fence else .code) := by
  have hfence : Marker.fence.text.isPrefixOf (96 :: s) = [96, 96].isPrefixOf s := by
    simp [Marker.text]
  have hbold : Marker.bold.text.isPrefixOf (96 :: s) = false := by
    simp [Marker.text, List.isPrefixOf_cons_cons]
  have hcode : Marker.code.text.isPrefixOf (96 :: s) = true := by
    simp [Marker.text]
  unfold markerAt
  rw [hfence, hbold, hcode]
  by_cases hs : [96, 96].isPrefixOf s = true <;> simp [hs]

theorem markerAt_asterisk (s : List UInt8) : markerAt (42 :: s) = if s.head? = some 42 then some .bold else none := by
  have hfence : Marker.fence.text.isPrefixOf (42 :: s) = false := by
    simp [Marker.text, List.isPrefixOf_cons_cons]
  have hcode : Marker.code.text.isPrefixOf (42 :: s) = false := by
    simp [Marker.text, List.isPrefixOf_cons_cons]
  have hbold : Marker.bold.text.isPrefixOf (42 :: s) = [42].isPrefixOf s := by
    simp [Marker.text]
  unfold markerAt
  rw [hfence, hbold, hcode]
  cases s with
  | nil => rfl
  | cons d s =>
    by_cases hd : d = 42
    · simp [hd]
    · simp [hd, Ne.symm hd, List.isPrefixOf_cons_cons]

theorem markerAt_other {c : UInt8} (hb : c ≠ 96) (ha : c ≠ 42) (s : List UInt8) : markerAt (c :: s) = none := by
  simp [markerAt, Marker.text, List.isPrefixOf_cons_cons, Ne.symm hb, Ne.symm ha]

/-- A byte that starts no marker is no backtick, and no asterisk before another. -/
theorem markerAt_cons_none {c : UInt8} {s : List UInt8} : markerAt (c :: s) = none ↔ c ≠ 96 ∧ (c = 42 → s.head? ≠ some 42) := by
  by_cases hb : c = 96
  · subst hb
    simp [markerAt_backtick]
  by_cases ha : c = 42
  · subst ha
    simp [markerAt_asterisk]
  · simp [markerAt_other hb ha, hb, ha]

/-! ## The opening marker is the first -/

theorem mdFind_zero (buf needle : List UInt8) : mdFind buf needle 0 = strstr buf needle := by
  simp [mdFind]

theorem earlier_succ (best : Option (Nat × Marker)) (p : Option Nat) (m : Marker) :
    earlier (best.map fun q => (q.1 + 1, q.2)) (p.map (· + 1)) m = (earlier best p m).map fun q => (q.1 + 1, q.2) := by
  cases p with
  | none => simp [earlier]
  | some p =>
    cases best with
    | none => simp [earlier]
    | some q =>
      simp only [earlier, Option.map_some, Nat.add_lt_add_iff_right]
      split_ifs <;> rfl

theorem earlier_first (m m' : Marker) (p : Option Nat) : earlier (some (0, m)) p m' = some (0, m) := by
  cases p with
  | none => rfl
  | some p => simp [earlier]

theorem earlier_zero (best : Option (Nat × Marker)) (m : Marker) :
    earlier (best.map fun q => (q.1 + 1, q.2)) (some 0) m = some (0, m) := by
  cases best with
  | none => rfl
  | some q => simp [earlier]

theorem strstr_cons_neg {c : UInt8} {s pat : List UInt8} (h : ¬ pat.isPrefixOf (c :: s) = true) :
    strstr (c :: s) pat = (strstr s pat).map (· + 1) := by
  rw [strstr, if_neg h]

theorem strstr_cons_pos {c : UInt8} {s pat : List UInt8} (h : pat.isPrefixOf (c :: s) = true) :
    strstr (c :: s) pat = some 0 := by
  rw [strstr, if_pos h]

/-- Bytes before the first marker are passed over. -/
theorem opening_cons_none {c : UInt8} {s : List UInt8} (h : markerAt (c :: s) = none) :
    opening (c :: s) = (opening s).map fun q => (q.1 + 1, q.2) := by
  have hc := (markerAt_cons_none.1 h).1
  unfold markerAt at h
  split_ifs at h with hfence hbold hcode
  unfold opening
  rw [mdFind_zero, mdFind_zero, mdFind_zero, mdFind_zero, strstr_cons_neg hfence, strstr_cons_neg hbold,
    mdFindSingleBacktick, if_pos hc, ← earlier_succ, ← earlier_succ, ← earlier_succ]
  rfl

theorem opening_cons_some {c : UInt8} {s : List UInt8} {m : Marker} (h : markerAt (c :: s) = some m) :
    opening (c :: s) = some (0, m) := by
  have hnone : (none : Option (Nat × Marker)) = (none : Option (Nat × Marker)).map fun q => (q.1 + 1, q.2) := rfl
  unfold opening
  rw [mdFind_zero, mdFind_zero]
  unfold markerAt at h
  split_ifs at h with hfence hbold hcode
  · cases h
    rw [strstr_cons_pos hfence, hnone, earlier_zero, earlier_first, earlier_first]
  · cases h
    rw [strstr_cons_neg hfence, strstr_cons_pos hbold, hnone, earlier_succ, earlier_zero, earlier_first]
  · cases h
    have hc : 96 = c := by
      simpa [Marker.text] using hcode
    subst hc
    have hpair : ¬ [96, 96].isPrefixOf s = true := by
      simpa [Marker.text, List.isPrefixOf_cons_cons] using hfence
    rw [strstr_cons_neg hfence, strstr_cons_neg hbold, hnone, earlier_succ, earlier_succ, mdFindSingleBacktick,
      if_neg (by simp), if_neg hpair, earlier_zero]

/-- The earliest opening marker is the first place where a marker stands. -/
theorem opening_eq_some : ∀ {buf : List UInt8} {pos : Nat} {m : Marker}, opening buf = some (pos, m) →
    markerAt (buf.drop pos) = some m ∧ ∀ i < pos, markerAt (buf.drop i) = none
  | [], _, _, h => by cases h
  | c :: s, pos, m, h => by
    cases hm : markerAt (c :: s) with
    | some m' =>
      rw [opening_cons_some hm] at h
      cases h
      exact ⟨hm, nofun⟩
    | none =>
      rw [opening_cons_none hm] at h
      obtain ⟨⟨p, m'⟩, hp, heq⟩ := Option.map_eq_some_iff.1 h
      cases heq
      obtain ⟨hat, hbefore⟩ := opening_eq_some hp
      refine ⟨hat, fun i hi => ?_⟩
      cases i with
      | zero => exact hm
      | succ i => exact hbefore i (Nat.lt_of_succ_lt_succ hi)

theorem opening_eq_none : ∀ {buf : List UInt8}, opening buf = none → ∀ i, markerAt (buf.drop i) = none
  | [], _, i => by
    rw [List.drop_nil]
    rfl
  | c :: s, h, i => by
    cases hm : markerAt (c :: s) with
    | some m =>
      rw [opening_cons_some hm] at h
      cases h
    | none =>
      rw [opening_cons_none hm, Option.map_eq_none_iff] at h
      cases i with
      | zero => exact hm
      | succ i => exact opening_eq_none h i

/-! ## Spans -/

theorem spans_nil : spans [] = [] := by
  rw [spans]

theorem spans_plain {c : UInt8} {s : List UInt8} (h : markerAt (c :: s) = none) : spans (c :: s) = .plain c :: spans s := by
  rw [spans, h]

theorem spans_opened {s : List UInt8} {m : Marker} (h : markerAt s = some m)
    (hclose : strstr (s.drop m.text.length) m.text = none) : spans s = [.opened m s] := by
  cases s with
  | nil => cases h
  | cons c s =>
    rw [spans, h]
    dsimp only
    rw [hclose]

theorem spans_styled {s : List UInt8} {m : Marker} {i : Nat} (h : markerAt s = some m)
    (hclose : strstr (s.drop m.text.length) m.text = some i) :
    spans s = .styled m ((s.drop m.text.length).take i) :: spans ((s.drop m.text.length).drop (i + m.text.length)) := by
  cases s with
  | nil => cases h
  | cons c s =>
    rw [spans, h]
    dsimp only
    rw [hclose]

theorem Marker.text_ne_nil (m : Marker) : m.text ≠ [] := by
  cases m <;> simp [text]

/-- A complete construct is its markers and its content. -/
theorem styled_source {s : List UInt8} {m : Marker} {i : Nat} (h : markerAt s = some m)
    (hclose : strstr (s.drop m.text.length) m.text = some i) :
    s = m.text ++ (s.drop m.text.length).take i ++ m.text ++ (s.drop m.text.length).drop (i + m.text.length) := by
  obtain ⟨inside, rfl⟩ := markerAt_eq_some h
  rw [List.drop_left] at hclose ⊢
  obtain ⟨behind, hbehind⟩ := (strstr_eq_some hclose).1
  have hdrop : inside.drop (i + m.text.length) = behind := by
    rw [← List.drop_drop, ← hbehind, List.drop_left]
  rw [hdrop, List.append_assoc, List.append_assoc, hbehind, List.take_append_drop]

/-- The spans are the text. -/
theorem spans_source (s : List UInt8) : (spans s).flatMap Span.source = s := by
  induction hlen : s.length using Nat.strong_induction_on generalizing s with
  | _ n ih =>
    cases s with
    | nil => simp [spans_nil]
    | cons c s =>
      subst hlen
      cases hm : markerAt (c :: s) with
      | none =>
        rw [spans_plain hm, List.flatMap_cons, ih s.length (by simp) s rfl]
        rfl
      | some m =>
        cases hclose : strstr ((c :: s).drop m.text.length) m.text with
        | none =>
          rw [spans_opened hm hclose]
          simp [Span.source]
        | some i =>
          have hsource := styled_source hm hclose
          have hlt : (((c :: s).drop m.text.length).drop (i + m.text.length)).length < (c :: s).length := by
            have hpos := List.length_pos_iff.2 m.text_ne_nil
            rw [List.length_drop, List.length_drop]
            have : 0 < (c :: s).length := Nat.succ_pos _
            omega
          rw [spans_styled hm hclose, List.flatMap_cons, ih _ hlt _ rfl]
          exact hsource.symm

/-- Bytes where no marker starts are spans of their own. -/
theorem spans_plains : ∀ {a s : List UInt8}, (∀ i < a.length, markerAt ((a ++ s).drop i) = none) →
    spans (a ++ s) = a.map Span.plain ++ spans s
  | [], _, _ => rfl
  | c :: a, s, h => by
    have hrest : ∀ i < a.length, markerAt ((a ++ s).drop i) = none := fun i hi => h (i + 1) (Nat.succ_lt_succ hi)
    have hfirst := h 0 (Nat.succ_pos _)
    rw [List.cons_append, List.drop_zero] at hfirst
    rw [List.cons_append, spans_plain hfirst, spans_plains hrest]
    rfl

theorem render_plains (color : Bool) (a : List UInt8) : (a.map Span.plain).flatMap (Span.render color) = a := by
  induction a with
  | nil => rfl
  | cons c a ih =>
    rw [List.map_cons, List.flatMap_cons, ih]
    rfl

/-! ## More text behind the buffer -/

theorem markerAt_none_append {c d : UInt8} {s : List UInt8} (h : markerAt (c :: d :: s) = none) (t : List UInt8) :
    markerAt (c :: d :: t) = none := by
  rw [markerAt_cons_none] at h ⊢
  exact h

/-- Where no marker starts before the last byte, none starts with more text. -/
theorem markerAt_drop_append {buf : List UInt8} {i : Nat} (hi : i + 1 < buf.length) (h : markerAt (buf.drop i) = none)
    (more : List UInt8) : markerAt ((buf ++ more).drop i) = none := by
  rw [List.drop_append_of_le_length (by omega)]
  obtain ⟨c, d, s, hs⟩ : ∃ c d s, buf.drop i = c :: d :: s := by
    match hd : buf.drop i with
    | [] =>
      have := congrArg List.length hd
      rw [List.length_drop, List.length_nil] at this
      omega
    | [c] =>
      have := congrArg List.length hd
      rw [List.length_drop, List.length_singleton] at this
      omega
    | c :: d :: s => exact ⟨c, d, s, rfl⟩
  rw [hs] at h ⊢
  exact markerAt_none_append h _

theorem markerAt_long {s : List UInt8} (h : 3 ≤ s.length) (more : List UInt8) : markerAt (s ++ more) = markerAt s := by
  have hpre : ∀ m : Marker, m.text.isPrefixOf (s ++ more) = m.text.isPrefixOf s := by
    intro m
    have hlen : m.text.length ≤ s.length := by
      cases m <;> simp [Marker.text] <;> omega
    rw [Bool.eq_iff_iff, List.isPrefixOf_iff_prefix, List.isPrefixOf_iff_prefix]
    exact ⟨fun hp => List.prefix_of_prefix_length_le hp (List.prefix_append _ _) hlen, fun hp => hp.trans (List.prefix_append _ _)⟩
  unfold markerAt
  rw [hpre, hpre, hpre]

theorem fence_of_markerAt {s : List UInt8} (h : markerAt s = some .fence) : ¬ NoFence s := by
  intro hno
  cases hclose : strstr (s.drop Marker.fence.text.length) Marker.fence.text with
  | none => exact hno (.opened .fence s) (by rw [spans_opened h hclose]; exact List.mem_cons_self) rfl
  | some i => exact hno (.styled .fence _) (by rw [spans_styled h hclose]; exact List.mem_cons_self) rfl

/-- A marker is the same with more text, unless the text goes on to a fence. -/
theorem markerAt_more {s more : List UInt8} {m : Marker} (h : markerAt s = some m) (hsafe : more = [] ∨ NoFence (s ++ more)) :
    markerAt (s ++ more) = some m := by
  rcases hsafe with rfl | hno
  · rwa [List.append_nil]
  rcases Nat.lt_or_ge s.length 3 with hshort | hlong
  · obtain ⟨rest, rfl⟩ := markerAt_eq_some h
    cases m with
    | fence =>
      rw [List.length_append] at hshort
      change 3 + rest.length < 3 at hshort
      omega
    | bold =>
      rw [show Marker.bold.text ++ rest ++ more = 42 :: 42 :: (rest ++ more) from rfl, markerAt_asterisk]
      rfl
    | code =>
      have hbacktick := markerAt_backtick (rest ++ more)
      split_ifs at hbacktick
      · exact absurd hno (fence_of_markerAt hbacktick)
      · exact hbacktick
  · rw [markerAt_long hlong]
    exact h

/-! ## The renderer writes spans -/

/-- Nothing that is in the buffer has been decided. -/
def Settled (buf : List UInt8) : Prop := ∀ sp ∈ spans buf, ¬ sp.IsStyled

/-- What follows the buffer opens no fence and leaves nothing open for long; or nothing follows. -/
def Safe (buf more : List UInt8) : Prop := more = [] ∨ NoFence (buf ++ more) ∧ Short (buf ++ more)

theorem Safe.tail {buf more rest : List UInt8} (h : Safe buf more) {emitted : List Span}
    (hspans : spans (buf ++ more) = emitted ++ spans (rest ++ more)) : Safe rest more := by
  rcases h with rfl | ⟨hno, hshort⟩
  · exact .inl rfl
  · refine .inr ⟨fun sp hsp => hno sp ?_, fun sp hsp => hshort sp ?_⟩
    · rw [hspans]
      exact List.mem_append_right _ hsp
    · rw [hspans]
      exact List.mem_append_right _ hsp

theorem settled_render {buf : List UInt8} (h : Settled buf) (color : Bool) : (spans buf).flatMap (Span.render color) = buf := by
  have hsame : ∀ l : List Span, (∀ sp ∈ l, ¬ sp.IsStyled) → l.flatMap (Span.render color) = l.flatMap Span.source := by
    intro l
    induction l with
    | nil => exact fun _ => rfl
    | cons sp l ih =>
      intro hl
      have hfirst : sp.render color = sp.source := by
        cases sp with
        | styled m content => exact absurd trivial (hl _ List.mem_cons_self)
        | _ => rfl
      rw [List.flatMap_cons, List.flatMap_cons, hfirst, ih fun sp' h' => hl sp' (List.mem_cons_of_mem _ h')]
  rw [hsame _ h, spans_source]

theorem settled_nil : Settled [] := by
  unfold Settled
  rw [spans_nil]
  exact fun sp h => absurd h List.not_mem_nil

theorem settled_plain {buf : List UInt8} (h : ∀ i, markerAt (buf.drop i) = none) : Settled buf := by
  have hspans := @spans_plains buf [] fun i _ => by
    rw [List.append_nil]
    exact h i
  rw [List.append_nil, spans_nil, List.append_nil] at hspans
  unfold Settled
  rw [hspans]
  intro sp hsp
  obtain ⟨c, -, rfl⟩ := List.mem_map.1 hsp
  exact id

theorem settled_opened {buf : List UInt8} {m : Marker} (h : markerAt buf = some m)
    (hclose : strstr (buf.drop m.text.length) m.text = none) : Settled buf := by
  unfold Settled
  rw [spans_opened h hclose]
  intro sp hsp
  rw [List.mem_singleton.1 hsp]
  exact id

/-- A construct that is not closed in the buffer is open for all of it. -/
theorem openFor_ge {s more : List UInt8} {m : Marker} (h : markerAt (s ++ more) = some m)
    (hlen : m.text.length ≤ s.length) (hclose : strstr (s.drop m.text.length) m.text = none) :
    ∃ sp ∈ spans (s ++ more), s.length ≤ sp.openFor := by
  have hdrop : (s ++ more).drop m.text.length = s.drop m.text.length ++ more := List.drop_append_of_le_length hlen
  cases hmore : strstr ((s ++ more).drop m.text.length) m.text with
  | none =>
    refine ⟨.opened m (s ++ more), ?_, ?_⟩
    · rw [spans_opened h hmore]
      exact List.mem_cons_self
    · change s.length ≤ (s ++ more).length
      simp
  | some i =>
    refine ⟨.styled m (((s ++ more).drop m.text.length).take i), ?_, ?_⟩
    · rw [spans_styled h hmore]
      exact List.mem_cons_self
    · have hfits := strstr_length m.text_ne_nil hmore
      change s.length ≤ m.text.length + (((s ++ more).drop m.text.length).take i).length + m.text.length - 1
      rw [List.length_take, Nat.min_eq_left (by omega)]
      by_contra hlt
      have hin : i + m.text.length ≤ (s.drop m.text.length).length := by
        rw [List.length_drop]
        omega
      -- an occurrence in the buffer would have been found
      have hocc := (strstr_eq_some hmore).1
      rw [hdrop, List.drop_append_of_le_length (by omega)] at hocc
      refine strstr_eq_none m.text_ne_nil hclose i (List.prefix_of_prefix_length_le hocc (List.prefix_append _ _) ?_)
      rw [List.length_drop]
      omega

/-- The spans that a round decides, what it writes of them, and what it leaves. -/
structure Decides (color : Bool) (buf more : List UInt8) (r : List UInt8 × List UInt8) : Prop where
  spans_eq : ∃ emitted : List Span, r.1 = emitted.flatMap (Span.render color) ∧
    spans (buf ++ more) = emitted ++ spans (r.2 ++ more)
  settled : Settled r.2

/-- The bytes before the place where a marker may start. -/
theorem plains_before {buf : List UInt8} {pos : Nat} (hpos : pos < buf.length) (h : ∀ i < pos, markerAt (buf.drop i) = none)
    (more : List UInt8) : spans (buf ++ more) = (buf.take pos).map Span.plain ++ spans (buf.drop pos ++ more) := by
  have hsplit : buf ++ more = buf.take pos ++ (buf.drop pos ++ more) := by
    rw [← List.append_assoc, List.take_append_drop]
  conv_lhs => rw [hsplit]
  apply spans_plains
  intro i hi
  rw [← hsplit]
  rw [List.length_take] at hi
  exact markerAt_drop_append (by omega) (h i (by omega)) more

/-- A round without a marker holds the last bytes back. -/
theorem decides_none {color : Bool} {buf : List UInt8} (h : opening buf = none) (more : List UInt8) {k : Nat}
    (hk : k = if buf.length > 2 then 2 else buf.length) :
    Decides color buf more (buf.take (buf.length - k), buf.drop (buf.length - k)) := by
  have hnone := opening_eq_none h
  constructor
  · refine ⟨(buf.take (buf.length - k)).map Span.plain, (render_plains color _).symm, ?_⟩
    rcases Nat.lt_or_ge 2 buf.length with hlong | hshort
    · rw [if_pos hlong] at hk
      exact plains_before (by omega) (fun i _ => hnone i) more
    · rw [if_neg (by omega)] at hk
      rw [hk, Nat.sub_self]
      rfl
  · apply settled_plain
    intro i
    rw [List.drop_drop]
    exact hnone _

/-- A round at a marker that is not closed. -/
theorem decides_opened {color : Bool} {buf more : List UInt8} {pos : Nat} {m : Marker} (h : opening buf = some (pos, m))
    (hclose : strstr ((buf.drop pos).drop m.text.length) m.text = none) (hsafe : Safe buf more) :
    Decides color buf more (if buf.length - pos > 4096 then (buf, []) else (buf.take pos, buf.drop pos)) := by
  obtain ⟨hat, hbefore⟩ := opening_eq_some h
  have hmarker := (markerAt_eq_some hat).length_le
  have hpos : pos < buf.length := by
    have := List.length_pos_iff.2 m.text_ne_nil
    rw [List.length_drop] at hmarker
    omega
  have hspans := plains_before hpos hbefore more
  split_ifs with hlong
  · refine ⟨⟨(buf.take pos).map Span.plain ++ [.opened m (buf.drop pos)], ?_, ?_⟩, settled_nil⟩
    · rw [List.flatMap_append, render_plains]
      simp [Span.render]
    · rcases hsafe with rfl | ⟨-, hshort⟩
      · rw [hspans, List.append_nil, spans_opened hat hclose, List.append_nil, spans_nil, List.append_nil]
      · -- the text would leave the construct open for too long
        exfalso
        have hmore : markerAt (buf.drop pos ++ more) = some m := by
          rw [markerAt_long (by rw [List.length_drop]; omega)]
          exact hat
        obtain ⟨sp, hsp, hopen⟩ := openFor_ge hmore hmarker hclose
        have hle := hshort sp (by rw [hspans]; exact List.mem_append_right _ hsp)
        rw [List.length_drop] at hopen
        omega
  · exact ⟨⟨(buf.take pos).map Span.plain, (render_plains color _).symm, hspans⟩, settled_opened hat hclose⟩

/-- A construct that is complete in the buffer is complete with more text behind it. -/
theorem spans_closed {buf more : List UInt8} {pos i : Nat} {m : Marker} (hopen : opening buf = some (pos, m))
    (hclose : strstr ((buf.drop pos).drop m.text.length) m.text = some i) (hsafe : Safe buf more) :
    spans (buf ++ more) =
      ((buf.take pos).map Span.plain ++ [.styled m ((buf.drop (pos + m.text.length)).take i)]) ++
        spans (buf.drop (pos + m.text.length + i + m.text.length) ++ more) := by
  obtain ⟨hat, hbefore⟩ := opening_eq_some hopen
  have hmarker := (markerAt_eq_some hat).length_le
  have hfits := strstr_length m.text_ne_nil hclose
  have hmpos := List.length_pos_iff.2 m.text_ne_nil
  rw [List.length_drop] at hmarker
  rw [List.length_drop, List.length_drop] at hfits
  have hspans := plains_before (show pos < buf.length by omega) hbefore more
  have hmore : markerAt (buf.drop pos ++ more) = some m := by
    apply markerAt_more hat
    rcases Safe.tail hsafe hspans with rfl | ⟨hno, -⟩
    · exact .inl rfl
    · exact .inr hno
  have hdrop : (buf.drop pos ++ more).drop m.text.length = (buf.drop pos).drop m.text.length ++ more :=
    List.drop_append_of_le_length (by rw [List.length_drop]; omega)
  have hcloseMore : strstr ((buf.drop pos ++ more).drop m.text.length) m.text = some i := by
    rw [hdrop]
    exact strstr_append m.text_ne_nil hclose more
  have hrest : ((buf.drop pos ++ more).drop m.text.length).drop (i + m.text.length) =
      buf.drop (pos + m.text.length + i + m.text.length) ++ more := by
    rw [hdrop, List.drop_append_of_le_length (by rw [List.length_drop, List.length_drop]; omega), List.drop_drop,
      List.drop_drop]
    congr 2
    omega
  have hcontent : ((buf.drop pos ++ more).drop m.text.length).take i = (buf.drop (pos + m.text.length)).take i := by
    rw [hdrop, List.take_append_of_le_length (by rw [List.length_drop, List.length_drop]; omega), List.drop_drop]
  rw [hspans, spans_styled hmore hcloseMore, hrest, hcontent]
  simp

/-- What `md_process` writes are the spans that it has decided. -/
theorem mdProcess_decides (color : Bool) : ∀ {fuel : Nat} {buf more : List UInt8}, buf.length < fuel → Safe buf more →
    Decides color buf more (mdProcess color fuel buf)
  | fuel + 1, buf, more, hfuel, hsafe => by
    rw [mdProcess]
    cases hopen : opening buf with
    | none => exact decides_none hopen more rfl
    | some p =>
      obtain ⟨pos, m⟩ := p
      dsimp only
      have hfind : mdFind buf m.text (pos + m.text.length) =
          (strstr ((buf.drop pos).drop m.text.length) m.text).map (pos + m.text.length + ·) := by
        rw [List.drop_drop]
        rfl
      rw [hfind]
      cases hclose : strstr ((buf.drop pos).drop m.text.length) m.text with
      | none => exact decides_opened hopen hclose hsafe
      | some i =>
        dsimp only [Option.map_some]
        rw [Nat.add_sub_cancel_left]
        have hspans := spans_closed hopen hclose hsafe
        have hlt : (buf.drop (pos + m.text.length + i + m.text.length)).length < fuel := by
          have hfits := strstr_length m.text_ne_nil hclose
          have hmpos := List.length_pos_iff.2 m.text_ne_nil
          rw [List.length_drop, List.length_drop] at hfits
          rw [List.length_drop]
          omega
        obtain ⟨⟨emitted, hout, hleft⟩, hsettled⟩ := mdProcess_decides color hlt (Safe.tail hsafe hspans)
        refine ⟨⟨(buf.take pos).map Span.plain ++ [.styled m ((buf.drop (pos + m.text.length)).take i)] ++ emitted, ?_, ?_⟩,
          hsettled⟩
        · rw [List.flatMap_append, List.flatMap_append, render_plains, hout]
          simp [Span.render]
        · rw [hspans, hleft, ← List.append_assoc]

/-! ## Pieces -/

/-- Whatever the pieces are, what has been written and what is in the buffer are the spans of the text. -/
theorem feedAll_decides (color : Bool) : ∀ {pieces : List (List UInt8)} {buf : List UInt8}, Settled buf →
    Safe buf pieces.flatten → ∃ emitted : List Span, (feedAll color buf pieces).1 = emitted.flatMap (Span.render color) ∧
      spans (buf ++ pieces.flatten) = emitted ++ spans (feedAll color buf pieces).2 ∧ Settled (feedAll color buf pieces).2
  | [], buf, hset, _ => ⟨[], rfl, by rw [List.flatten_nil, List.append_nil]; rfl, hset⟩
  | piece :: pieces, buf, hset, hsafe => by
    rw [feedAll, mdRenderFeed]
    dsimp only
    by_cases hpiece : piece = []
    · subst hpiece
      exact feedAll_decides color hset hsafe
    · rw [if_neg hpiece]
      have hsafe' : Safe (buf ++ piece) pieces.flatten := by
        rw [Safe, List.append_assoc]
        rcases hsafe with hnil | hsafe
        · exact .inl (List.append_eq_nil_iff.1 hnil).2
        · exact .inr hsafe
      obtain ⟨⟨emitted, hout, hspans⟩, hsettled⟩ := mdProcess_decides color (Nat.lt_succ_self (buf ++ piece).length) hsafe'
      obtain ⟨emitted', hout', hspans', hsettled'⟩ := feedAll_decides color hsettled (Safe.tail hsafe' hspans)
      refine ⟨emitted ++ emitted', ?_, ?_, hsettled'⟩
      · rw [hout', List.flatMap_append, ← hout]
      · rw [List.flatten_cons, ← List.append_assoc, hspans, hspans', List.append_assoc]

/-- Where no fence opens, every cut gives the spans with their colors. -/
theorem rendered_eq {text : List UInt8} (hno : NoFence text) (hshort : Short text) (color : Bool)
    {pieces : List (List UInt8)} (hcut : Cut pieces text) : rendered color pieces = (spans text).flatMap (Span.render color) := by
  obtain ⟨emitted, hout, hspans, hsettled⟩ := @feedAll_decides color pieces [] settled_nil (by
    rw [hcut.1]
    exact .inr ⟨hno, hshort⟩)
  rw [List.nil_append, hcut.1] at hspans
  unfold rendered
  rw [hspans, List.flatMap_append, ← hout, settled_render hsettled]

/-- A text in one piece gives them whatever it holds. -/
theorem rendered_whole (color : Bool) {text : List UInt8} (hne : text ≠ []) :
    rendered color [text] = (spans text).flatMap (Span.render color) := by
  obtain ⟨⟨emitted, hout, hspans⟩, hsettled⟩ :=
    mdProcess_decides color (Nat.lt_succ_self text.length) (show Safe text [] from .inl rfl)
  rw [List.append_nil, List.append_nil] at hspans
  unfold rendered
  rw [feedAll, mdRenderFeed, if_neg hne, List.nil_append]
  dsimp only [feedAll]
  rw [hspans, List.flatMap_append, ← hout, settled_render hsettled, List.append_nil]

theorem render_false (sp : Span) : sp.render false = sp.shown := by
  cases sp with
  | plain c => rfl
  | styled m content => simp [Span.render, Span.shown, mdEmitStyled]
  | opened m s => rfl

/-! ## A fence that is cut -/

/-- The first occurrence is found in a text that ends with it. -/
theorem strstr_of_append {p x pat : List UInt8} {i : Nat} (hne : pat ≠ []) (h : strstr (p ++ x) pat = some i)
    (hlen : i + pat.length ≤ p.length) : strstr p pat = some i := by
  obtain ⟨hocc, hfirst⟩ := strstr_eq_some h
  refine strstr_of_first hne ?_ fun j hj hpre => hfirst j hj ?_
  · rw [List.drop_append_of_le_length (by omega)] at hocc
    refine List.prefix_of_prefix_length_le hocc (List.prefix_append _ _) ?_
    rw [List.length_drop]
    omega
  · rw [List.drop_append_of_le_length (by omega)]
    exact hpre.trans (List.prefix_append _ _)

/-- A complete construct before a backtick is one whatever follows the backtick. -/
theorem spans_styled_before {m : Marker} {content a y : List UInt8}
    (h : markerAt (m.text ++ (content ++ m.text ++ (a ++ 96 :: y))) = some m)
    (hclose : strstr (content ++ m.text ++ (a ++ 96 :: y)) m.text = some content.length) (y' : List UInt8) :
    spans (m.text ++ (content ++ m.text ++ (a ++ 96 :: y'))) = .styled m content :: spans (a ++ 96 :: y') := by
  have hlong : 3 ≤ (m.text ++ (content ++ m.text ++ (a ++ [96]))).length := by
    cases m <;> simp [Marker.text] <;> omega
  have hbehind : ∀ z, m.text ++ (content ++ m.text ++ (a ++ 96 :: z)) = m.text ++ (content ++ m.text ++ (a ++ [96])) ++ z := by
    intro z
    simp
  have hmarker : markerAt (m.text ++ (content ++ m.text ++ (a ++ 96 :: y'))) = some m := by
    rw [hbehind, markerAt_long hlong] at h ⊢
    exact h
  have hfound : strstr (content ++ m.text) m.text = some content.length :=
    strstr_of_append m.text_ne_nil hclose (by rw [List.length_append])
  have hclose' : strstr ((m.text ++ (content ++ m.text ++ (a ++ 96 :: y'))).drop m.text.length) m.text = some content.length := by
    rw [List.drop_left]
    exact strstr_append m.text_ne_nil hfound _
  have hafter : (content ++ m.text ++ (a ++ 96 :: y')).drop (content.length + m.text.length) = a ++ 96 :: y' := by
    rw [← List.length_append, List.drop_left]
  rw [spans_styled hmarker hclose', List.drop_left, hafter, List.append_assoc, List.take_left]

/-- The first fence stands behind spans that are the same whatever follows its first backtick. -/
theorem exists_fence (text : List UInt8) (h : ¬ NoFence text) : ∃ (a : List UInt8) (l : List Span) (b : List UInt8),
    text = a ++ Marker.fence.text ++ b ∧ ∀ y, spans (a ++ 96 :: y) = l ++ spans (96 :: y) := by
  induction hlen : text.length using Nat.strong_induction_on generalizing text with
  | _ n ih =>
    subst hlen
    cases text with
    | nil =>
      refine absurd (fun sp hsp => ?_) h
      rw [spans_nil] at hsp
      exact absurd hsp List.not_mem_nil
    | cons c s =>
      cases hm : markerAt (c :: s) with
      | none =>
        -- a plain character goes in front of what comes before the fence
        have hs : ¬ NoFence s := by
          intro hno
          apply h
          unfold NoFence
          rw [spans_plain hm]
          rintro sp hsp
          rcases List.mem_cons.1 hsp with rfl | hsp
          · exact id
          · exact hno sp hsp
        obtain ⟨a, l, b, rfl, hall⟩ := ih s.length (by simp) s hs rfl
        refine ⟨c :: a, .plain c :: l, b, rfl, fun y => ?_⟩
        have hplain : markerAt (c :: (a ++ 96 :: y)) = none := by
          rw [markerAt_cons_none] at hm ⊢
          cases a with
          | nil => exact hm
          | cons d a => exact hm
        rw [List.cons_append, spans_plain hplain, hall, List.cons_append]
      | some m =>
        by_cases hfence : m = .fence
        · subst hfence
          obtain ⟨b, hb⟩ := markerAt_eq_some hm
          exact ⟨[], [], b, hb.symm, fun y => rfl⟩
        cases hclose : strstr ((c :: s).drop m.text.length) m.text with
        | none =>
          refine absurd (fun sp hsp => ?_) h
          rw [spans_opened hm hclose] at hsp
          rw [List.mem_singleton.1 hsp]
          exact hfence
        | some i =>
          have hsource := styled_source hm hclose
          have hfits := strstr_length m.text_ne_nil hclose
          have hspans := spans_styled hm hclose
          -- a closed span goes in front; it is found again in front of any text that starts with a backtick
          generalize (c :: s).drop m.text.length = inside at *
          have hrest : ¬ NoFence (inside.drop (i + m.text.length)) := by
            intro hno
            apply h
            unfold NoFence
            rw [hspans]
            rintro sp hsp
            rcases List.mem_cons.1 hsp with rfl | hsp
            · exact hfence
            · exact hno sp hsp
          have hshorter : (inside.drop (i + m.text.length)).length < (c :: s).length := by
            have := congrArg List.length hsource
            have hmpos := List.length_pos_iff.2 m.text_ne_nil
            simp only [List.length_append] at this
            omega
          obtain ⟨a, l, b, hab, hall⟩ := ih _ hshorter _ hrest rfl
          have hcontent : (inside.take i).length = i := by
            rw [List.length_take]
            omega
          have hinside : inside = inside.take i ++ m.text ++ (a ++ 96 :: 96 :: 96 :: b) := by
            obtain ⟨behind, hbehind⟩ := (strstr_eq_some hclose).1
            have hdrop : inside.drop (i + m.text.length) = behind := by
              rw [← List.drop_drop, ← hbehind, List.drop_left]
            rw [hdrop] at hab
            conv_lhs => rw [← List.take_append_drop i inside, ← hbehind, hab]
            simp [Marker.text]
          have htext : c :: s = m.text ++ (inside.take i ++ m.text ++ (a ++ 96 :: 96 :: 96 :: b)) := by
            rw [hsource, hab]
            simp [Marker.text]
          rw [htext] at hm
          rw [hinside] at hclose
          refine ⟨m.text ++ inside.take i ++ m.text ++ a, .styled m (inside.take i) :: l, b, ?_, fun y => ?_⟩
          · rw [hsource, hab]
            simp
          · have hbefore := spans_styled_before hm (by rw [hcontent]; exact hclose) y
            rw [hall] at hbefore
            rw [List.cons_append, ← hbefore]
            simp

theorem spans_pair : spans [96, 96] = [.styled .code []] := by
  rw [@spans_styled [96, 96] .code 0 (by decide) (by decide)]
  change Span.styled .code [] :: spans [] = _
  rw [spans_nil]

/-- The two backticks are taken for a construct of their own. -/
theorem decides_pair {color : Bool} {a : List UInt8} {l : List Span} (h : spans (a ++ [96, 96]) = l ++ spans [96, 96])
    {r : List UInt8 × List UInt8} (hr : Decides color (a ++ [96, 96]) [] r) :
    r.1 = l.flatMap (Span.render color) ++ mdEmitStyled color [] .code ∧ r.2 = [] := by
  obtain ⟨⟨emitted, hout, hspans⟩, hsettled⟩ := hr
  rw [List.append_nil, List.append_nil, h, spans_pair] at hspans
  rcases List.eq_nil_or_concat (spans r.2) with hnil | ⟨init, last, hlast⟩
  · have hrest : r.2 = [] := by
      rw [← spans_source r.2, hnil]
      rfl
    rw [hnil, List.append_nil] at hspans
    refine ⟨?_, hrest⟩
    rw [hout, ← hspans, List.flatMap_append]
    simp [Span.render]
  · -- nothing that stays in the buffer has been decided
    exfalso
    rw [hlast, List.concat_eq_append, ← List.append_assoc] at hspans
    obtain ⟨-, heq⟩ := List.append_inj' hspans rfl
    apply hsettled last
    · rw [hlast]
      simp
    · cases heq
      exact trivial

/-- A text with a fence is written in another way when it is cut in the opening marker. -/
theorem not_same_of_fence {text : List UInt8} (h : ¬ NoFence text) :
    ∃ pieces pieces', Cut pieces text ∧ Cut pieces' text ∧ rendered true pieces ≠ rendered true pieces' := by
  obtain ⟨a, l, b, rfl, hall⟩ := exists_fence text h
  have htext : a ++ Marker.fence.text ++ b = a ++ 96 :: 96 :: 96 :: b := by
    simp [Marker.text]
  rw [htext]
  refine ⟨[a ++ 96 :: 96 :: 96 :: b], [a ++ [96, 96], 96 :: b], ⟨by simp, by simp⟩, ⟨by simp, by simp⟩, ?_⟩
  rw [rendered_whole true (by simp), hall, List.flatMap_append]
  have hfirst := decides_pair (hall [96]) (mdProcess_decides true (Nat.lt_succ_self (a ++ [96, 96]).length) (.inl rfl))
  intro heq
  unfold rendered at heq
  rw [feedAll, mdRenderFeed, if_neg (by simp), List.nil_append] at heq
  dsimp only at heq
  rw [hfirst.1, List.append_assoc, List.append_assoc, List.append_cancel_left_eq] at heq
  have hfence : markerAt (96 :: 96 :: 96 :: b) = some .fence := by
    rw [markerAt_backtick]
    simp
  have hcyan : mdEmitStyled true [] .code = [27, 91, 51, 54, 109, 27, 91, 48, 109] := by decide
  rw [hcyan] at heq
  cases hclose : strstr ((96 :: 96 :: 96 :: b).drop Marker.fence.text.length) Marker.fence.text with
  | none =>
    rw [spans_opened hfence hclose] at heq
    simp [Span.render] at heq
  | some i =>
    have hgreen : Marker.fence.style = [27, 91, 51, 50, 109] := by decide
    rw [spans_styled hfence hclose] at heq
    simp [Span.render, mdEmitStyled, hgreen] at heq

/-- The spans are the text, and what is written of it does not depend on the cut exactly if no code fence opens. -/
theorem chunking_iff {text : List UInt8} (hshort : Short text) :
    (spans text).flatMap Span.source = text ∧ (ChunkIndependent text ↔ NoFence text) := by
  refine ⟨spans_source text, ?_, ?_⟩
  · rintro ⟨hsame, -⟩
    by_contra hfence
    obtain ⟨pieces, pieces', hcut, hcut', hne⟩ := not_same_of_fence hfence
    exact hne (hsame true pieces pieces' hcut hcut')
  · intro hno
    constructor
    · rintro color pieces pieces' hcut hcut'
      rw [rendered_eq hno hshort color hcut, rendered_eq hno hshort color hcut']
    · rintro pieces hcut
      rw [rendered_eq hno hshort false hcut]
      congr 1
      funext sp
      exact render_false sp

theorem openFor_le (sp : Span) : sp.openFor ≤ sp.source.length := by
  cases sp with
  | plain c => exact Nat.zero_le _
  | styled m content =>
    simp only [Span.openFor, Span.source, List.length_append]
    omega
  | opened m s => exact le_refl _

/-- In a text of at most 4096 bytes nothing stays open for longer. -/
theorem short_of_length {text : List UInt8} (h : text.length ≤ 4096) : Short text := by
  intro sp hsp
  obtain ⟨before, behind, heq⟩ := List.append_of_mem hsp
  have hsource := congrArg List.length (spans_source text)
  rw [heq, List.flatMap_append, List.flatMap_cons, List.length_append, List.length_append] at hsource
  have := openFor_le sp
  omega

theorem chunking_iff_bold : ChunkIndependent (ascii "**a**") := by
  have hspans : spans (ascii "**a**") = [.styled .bold [97]] := by
    rw [@spans_styled (ascii "**a**") .bold 1 (by decide) (by decide)]
    change Span.styled .bold [97] :: spans [] = _
    rw [spans_nil]
  refine (chunking_iff (short_of_length (by decide))).2.2 ?_
  unfold NoFence
  rw [hspans]
  intro sp hsp
  rw [List.mem_singleton.1 hsp]
  exact Marker.noConfusion

/-- A fence that is cut behind its second backtick. -/
theorem fence_in_two_pieces : Short (ascii "```a```") ∧ Cut [ascii "```a```"] (ascii "```a```") ∧
    Cut [ascii "``", ascii "`a```"] (ascii "```a```") ∧
      rendered true [ascii "```a```"] ≠ rendered true [ascii "``", ascii "`a```"] := by
  refine ⟨short_of_length (by decide), ?_, ?_, ?_⟩
  · exact ⟨by decide, by decide⟩
  · exact ⟨by decide, by decide⟩
  · decide

end BitForge.Cli
