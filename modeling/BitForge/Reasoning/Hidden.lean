/-
What the thought filter shows of a stream. It sees a tag exactly when the text before the tag does
not end in an odd number of partial tags; it hides from the first `<think>` it sees to the first
`</think>` it sees after that, and drops an unfinished tag at the end. This is the stream without its
first block exactly when the tags it sees hide the same bytes, and as long as no piece shows more
than the output buffer holds.
-/
import BitForge.Lib.Marker
import BitForge.Reasoning.ThoughtFilter

namespace BitForge.Reasoning

open BitForge.Lib

/-! ## What should be shown -/

/-- Start and end of the first complete block of the stream. -/
def firstBlock (s : List UInt8) : Option (Nat × Nat) :=
  (strstr s openTag).bind fun p => (strstr (s.drop (p + 7)) closeTag).map fun q => (p, p + 7 + q + 8)

def withoutFirstBlock (s : List UInt8) : List UInt8 :=
  match firstBlock s with
  | none => s
  | some (p, e) => s.take p ++ s.drop e

/-- The part of the stream between `a` and `b` is hidden by the tags that are seen, or is a partial
tag at the end. -/
inductive Hides (s : List UInt8) : Nat → Nat → Prop
  | partialTag {a : Nat} : (∀ j, ¬ SeenAt openTag s j) → a ≤ s.length → s.drop a <+: openTag → s.drop a ≠ openTag →
      ¬ Dangling openTag (s.take a) → Hides s a s.length
  | unclosed {a : Nat} : FirstSeen openTag s a → (∀ j, ¬ SeenAt closeTag (s.drop (a + 7)) j) → Hides s a s.length
  | block {a b : Nat} : FirstSeen openTag s a → FirstSeen closeTag (s.drop (a + 7)) b → Hides s a (a + 7 + b + 8)

/-- What is hidden is the first block, or as many bytes after it with the same text before them. -/
def FilterOk (s : List UInt8) : Prop :=
  ∃ a b, Hides s a b ∧
    match firstBlock s with
    | none => a = b
    | some (p, e) => b - a = e - p ∧ (s.drop p).take (a - p) = (s.drop e).take (a - p)

/-- Each piece after the text `s` makes fewer bytes visible than the output buffer has. -/
def Fits : List UInt8 → List (List UInt8) → Prop
  | _, [] => True
  | s, piece :: pieces =>
    (∀ a b a' b', Hides s a b → Hides (s ++ piece) a' b' →
      (s ++ piece).length - (b' - a') < s.length - (b - a) + outputSize) ∧ Fits (s ++ piece) pieces

/-! ## The filter without an output buffer -/

/-- All bytes that the filter lets through. -/
def visible : ThoughtFilter → List UInt8 → List UInt8
  | _, [] => []
  | f, c :: s => (filterChar f c).2 ++ visible (filterChar f c).1 s

/-- The filter after a text. -/
def filterAfter : ThoughtFilter → List UInt8 → ThoughtFilter
  | f, [] => f
  | f, c :: s => filterAfter (filterChar f c).1 s

theorem visible_append (f : ThoughtFilter) (s t : List UInt8) :
    visible f (s ++ t) = visible f s ++ visible (filterAfter f s) t := by
  induction s generalizing f with
  | nil => rfl
  | cons c s ih => rw [List.cons_append, visible, visible, filterAfter, ih, List.append_assoc]

theorem filterAfter_append (f : ThoughtFilter) (s t : List UInt8) :
    filterAfter f (s ++ t) = filterAfter (filterAfter f s) t := by
  induction s generalizing f with
  | nil => rfl
  | cons c s ih => exact ih _

/-- The matcher goes on exactly when the next byte of the tag is the one read. -/
theorem concat_prefix_iff {tag m : List UInt8} (hm : m <+: tag) (hlt : m.length < tag.length) (c : UInt8) :
    m ++ [c] <+: tag ↔ (tag[m.length]?).getD 0 = c := by
  obtain ⟨z, rfl⟩ := hm
  cases z with
  | nil => simp at hlt
  | cons d z => simp [List.cons_prefix_cons, eq_comm]

/-- The filter is in the state in which it has read the part `m` of the open tag. -/
def OpenState (f : ThoughtFilter) (m : List UInt8) : Prop :=
  f.state = .passthrough ∧ m = [] ∨ f.state = .bufferingOpenTag ∧ f.tagBuffer = m ∧ m ≠ []

/-- The same for the close tag. -/
def CloseState (f : ThoughtFilter) (m : List UInt8) : Prop :=
  f.state = .thinking ∧ m = [] ∨ f.state = .bufferingCloseTag ∧ f.tagBuffer = m ∧ m ≠ []

theorem pushTag_part {m tag : List UInt8} (hlt : m.length < tag.length) (htag : tag.length < 15) (c : UInt8) :
    pushTag m c = m ++ [c] := by
  unfold pushTag
  rw [if_pos (by omega)]

theorem mismatch_iff {m tag : List UInt8} (hm : m <+: tag) (hlt : m.length < tag.length) (c : UInt8) :
    mismatch tag (m ++ [c]) c = true ↔ ¬ m ++ [c] <+: tag := by
  rw [concat_prefix_iff hm hlt]
  simp [mismatch]

theorem openTag_eq : openTag = 60 :: ascii "think>" := rfl

theorem closeTag_eq : closeTag = 60 :: ascii "/think>" := rfl

theorem singleton_prefix_iff {b c : UInt8} {rest : List UInt8} : [c] <+: b :: rest ↔ c = b := by
  simp [List.cons_prefix_cons]

/-- One step of the filter outside a block is a step of the matcher. -/
theorem filterChar_open {f : ThoughtFilter} {m : List UInt8} (h : OpenState f m) (hm : m <+: openTag)
    (hlt : m.length < openTag.length) (c : UInt8) :
    (m ++ [c] = openTag → (filterChar f c).1.state = .thinking ∧ (filterChar f c).2 = []) ∧
    (m ++ [c] ≠ openTag → m ++ [c] <+: openTag → OpenState (filterChar f c).1 (m ++ [c]) ∧ (filterChar f c).2 = []) ∧
    (¬ m ++ [c] <+: openTag → (filterChar f c).1.state = .passthrough ∧ (filterChar f c).2 = m ++ [c]) := by
  rcases h with ⟨hstate, rfl⟩ | ⟨hstate, rfl, hne⟩
  · have hone : [c] ≠ openTag := fun h => absurd (congrArg List.length h) (by decide : 1 ≠ 7)
    have hstart : [c] <+: openTag ↔ c = 60 := by rw [openTag_eq, singleton_prefix_iff]
    unfold filterChar
    rw [hstate, List.nil_append]
    refine ⟨fun h => absurd h hone, fun _ h => ?_, fun h => ?_⟩
    · rw [if_pos (hstart.1 h), hstart.1 h]
      exact ⟨.inr ⟨rfl, rfl, nofun⟩, rfl⟩
    · rw [if_neg fun hc => h (hstart.2 hc)]
      exact ⟨hstate, rfl⟩
  · unfold filterChar
    rw [hstate]
    simp only [pushTag_part hlt (by decide)]
    refine ⟨fun h => ?_, fun h hgo => ?_, fun hgo => ?_⟩
    · rw [if_pos ⟨congrArg List.length h, h⟩]
      exact ⟨rfl, rfl⟩
    · rw [if_neg fun hfull => h hfull.2, if_neg fun hmis => (mismatch_iff hm hlt c).1 hmis hgo]
      exact ⟨.inr ⟨rfl, rfl, by simp⟩, rfl⟩
    · rw [if_neg fun hfull => hgo (by rw [hfull.2]), if_pos ((mismatch_iff hm hlt c).2 hgo)]
      exact ⟨rfl, rfl⟩

/-- The same inside a block, where nothing is let through. -/
theorem filterChar_close {f : ThoughtFilter} {m : List UInt8} (h : CloseState f m) (hm : m <+: closeTag)
    (hlt : m.length < closeTag.length) (c : UInt8) :
    (filterChar f c).2 = [] ∧
    (m ++ [c] = closeTag → (filterChar f c).1.state = .output) ∧
    (m ++ [c] ≠ closeTag → m ++ [c] <+: closeTag → CloseState (filterChar f c).1 (m ++ [c])) ∧
    (¬ m ++ [c] <+: closeTag → (filterChar f c).1.state = .thinking) := by
  rcases h with ⟨hstate, rfl⟩ | ⟨hstate, rfl, hne⟩
  · have hone : [c] ≠ closeTag := fun h => absurd (congrArg List.length h) (by decide : 1 ≠ 8)
    have hstart : [c] <+: closeTag ↔ c = 60 := by rw [closeTag_eq, singleton_prefix_iff]
    unfold filterChar
    rw [hstate, List.nil_append]
    dsimp only
    by_cases hc : c = 60
    · rw [if_pos hc]
      exact ⟨rfl, fun h => absurd h hone, fun _ _ => .inr ⟨rfl, by rw [hc], nofun⟩, fun h => absurd (hstart.2 hc) h⟩
    · rw [if_neg hc]
      exact ⟨rfl, fun h => absurd h hone, fun _ h => absurd (hstart.1 h) hc, fun _ => rfl⟩
  · unfold filterChar
    rw [hstate]
    simp only [pushTag_part hlt (by decide)]
    by_cases hfull : f.tagBuffer ++ [c] = closeTag
    · rw [if_pos ⟨congrArg List.length hfull, hfull⟩]
      exact ⟨rfl, fun _ => rfl, fun h => absurd hfull h, fun h => absurd (by rw [hfull]) h⟩
    · rw [if_neg fun h => hfull h.2]
      by_cases hgo : f.tagBuffer ++ [c] <+: closeTag
      · rw [if_neg fun hmis => (mismatch_iff hm hlt c).1 hmis hgo]
        exact ⟨rfl, fun h => absurd h hfull, fun _ _ => .inr ⟨rfl, rfl, by simp⟩, fun h => absurd hgo h⟩
      · rw [if_pos ((mismatch_iff hm hlt c).2 hgo)]
        exact ⟨rfl, fun h => absurd h hfull, fun _ h => absurd h hgo, fun _ => rfl⟩

theorem visible_output {f : ThoughtFilter} (h : f.state = .output) (s : List UInt8) : visible f s = s := by
  induction s with
  | nil => rfl
  | cons c s ih =>
    have hchar : filterChar f c = (f, [c]) := by unfold filterChar; rw [h]
    rw [visible, hchar, ih]
    rfl

/-- Inside a block the filter shows what follows the close tag that the matcher finds. -/
theorem visible_close {f : ThoughtFilter} {m : List UInt8} (h : CloseState f m) (hm : m <+: closeTag)
    (hlt : m.length < closeTag.length) (s : List UInt8) :
    visible f s = match (seek closeTag m s).2 with | .inl _ => [] | .inr after => after := by
  induction s generalizing f m with
  | nil => rfl
  | cons c s ih =>
    obtain ⟨hout, hfound, hmore, hback⟩ := filterChar_close h hm hlt c
    rw [visible, hout, List.nil_append, seek]
    split_ifs with hfull hgo
    · exact visible_output (hfound hfull) s
    · exact ih (hmore hfull hgo) hgo (length_lt_of_part hgo hfull)
    · exact ih (.inl ⟨hback hgo, rfl⟩) (List.nil_prefix ..) (by decide)

/-- Outside a block it shows what the matcher lets go, and goes on inside the block that it finds. -/
theorem visible_open {f : ThoughtFilter} {m : List UInt8} (h : OpenState f m) (hm : m <+: openTag)
    (hlt : m.length < openTag.length) (s : List UInt8) :
    ∃ g, g.state = .thinking ∧ visible f s = (seek openTag m s).1 ++
      match (seek openTag m s).2 with | .inl _ => [] | .inr after => visible g after := by
  induction s generalizing f m with
  | nil => exact ⟨⟨.thinking, [], 0⟩, rfl, rfl⟩
  | cons c s ih =>
    obtain ⟨hfound, hmore, hback⟩ := filterChar_open h hm hlt c
    rw [visible, seek]
    split_ifs with hfull hgo
    · exact ⟨_, (hfound hfull).1, by rw [(hfound hfull).2]⟩
    · rw [(hmore hfull hgo).2]
      exact ih (hmore hfull hgo).1 hgo (length_lt_of_part hgo hfull)
    · obtain ⟨g, hg, hv⟩ := ih (.inl ⟨(hback hgo).1, rfl⟩) (List.nil_prefix ..) (by decide)
      exact ⟨g, hg, by rw [hv, (hback hgo).2]; simp only [List.append_assoc]⟩

/-! ## What is hidden -/

/-- The tags of a text are seen in one way only. -/
theorem Hides.unique {s : List UInt8} {a b a' b' : Nat} (h : Hides s a b) (h' : Hides s a' b') : a = a' ∧ b = b' := by
  cases h with
  | partialTag hnone hle hpre hne hd =>
    cases h' with
    | partialTag _ hle' hpre' hne' hd' =>
      have hsplit := (List.take_append_drop a s).trans (List.take_append_drop a' s).symm
      rw [openTag_eq] at hpre hne hd hpre' hne' hd'
      have hsame := congrArg List.length (dangling_split_unique (by decide) hsplit hd hpre hne hd' hpre' hne')
      rw [List.length_drop, List.length_drop] at hsame
      exact ⟨by omega, rfl⟩
    | unclosed ha _ => exact absurd ha.1 (hnone _)
    | block ha _ => exact absurd ha.1 (hnone _)
  | unclosed ha hnone =>
    cases h' with
    | partialTag hnone' => exact absurd ha.1 (hnone' _)
    | unclosed ha' _ => exact ⟨ha.unique ha', rfl⟩
    | block ha' hb' =>
      obtain rfl := ha.unique ha'
      exact absurd hb'.1 (hnone _)
  | block ha hb =>
    cases h' with
    | partialTag hnone' => exact absurd ha.1 (hnone' _)
    | unclosed ha' hnone' =>
      obtain rfl := ha.unique ha'
      exact absurd hb.1 (hnone' _)
    | block ha' hb' =>
      obtain rfl := ha.unique ha'
      obtain rfl := hb.unique hb'
      exact ⟨rfl, rfl⟩

theorem hides_visible (s : List UInt8) :
    ∃ a b, Hides s a b ∧ a ≤ b ∧ b ≤ s.length ∧ visible thoughtFilterInit s = s.take a ++ s.drop b := by
  have hopen : OpenState thoughtFilterInit [] := .inl ⟨rfl, rfl⟩
  obtain ⟨g, hg, hv⟩ := visible_open hopen (List.nil_prefix ..) (by decide) s
  have hseek := @seek_start 60 (ascii "think>") (by decide) s
  rw [← openTag_eq] at hseek
  rcases hr : seek openTag [] s with ⟨pre, m | after⟩
  · rw [hr] at hv hseek
    obtain ⟨hs, hd, hm, hm', hnone⟩ := hseek
    rw [List.nil_append] at hs hd
    have hdrop : s.drop pre.length = m := by rw [hs, List.drop_left]
    have htake : s.take pre.length = pre := by rw [hs, List.take_left]
    have hle : pre.length ≤ s.length := by rw [hs, List.length_append]; omega
    refine ⟨pre.length, s.length, .partialTag hnone hle ?_ ?_ ?_, hle, Nat.le_refl _, ?_⟩
    · rw [hdrop]; exact hm
    · rw [hdrop]; exact hm'
    · rw [htake]; exact hd
    · rw [hv, htake, List.drop_length]
  · rw [hr] at hv hseek
    obtain ⟨hs, hfirst⟩ := hseek
    rw [List.nil_append] at hs hfirst
    have hdrop : s.drop (pre.length + 7) = after := by
      rw [hs]
      exact List.drop_left' (by rw [List.length_append]; rfl)
    have htake : s.take pre.length = pre := by rw [hs, List.append_assoc, List.take_left]
    have hlen : s.length = pre.length + 7 + after.length := by
      rw [hs, List.length_append, List.length_append]
      rfl
    have hclose := @seek_start 60 (ascii "/think>") (by decide) after
    rw [← closeTag_eq] at hclose
    have hv' := visible_close (f := g) (.inl ⟨hg, rfl⟩) (List.nil_prefix ..) (by decide) after
    dsimp only at hv
    rw [hv'] at hv
    rcases hr' : seek closeTag [] after with ⟨inner, m | post⟩
    · rw [hr'] at hv hclose
      obtain ⟨-, -, -, -, hnone⟩ := hclose
      rw [← hdrop] at hnone
      refine ⟨pre.length, s.length, .unclosed hfirst hnone, by omega, Nat.le_refl _, ?_⟩
      rw [hv, htake, List.drop_length]
    · rw [hr'] at hv hclose
      obtain ⟨hafter, hfirst'⟩ := hclose
      rw [List.nil_append] at hafter hfirst'
      rw [← hdrop] at hfirst'
      have hpost : s.drop (pre.length + 7 + inner.length + 8) = post := by
        have hadd : pre.length + 7 + inner.length + 8 = pre.length + 7 + (inner.length + 8) := by omega
        rw [hadd, ← List.drop_drop, hdrop, hafter]
        exact List.drop_left' (by rw [List.length_append]; rfl)
      have hlen' : after.length = inner.length + 8 + post.length := by
        rw [hafter, List.length_append, List.length_append]
        rfl
      refine ⟨pre.length, _, .block hfirst hfirst', by omega, by omega, ?_⟩
      rw [hv, htake, hpost]

theorem Hides.visible {s : List UInt8} {a b : Nat} (h : Hides s a b) :
    a ≤ b ∧ b ≤ s.length ∧ visible thoughtFilterInit s = s.take a ++ s.drop b := by
  obtain ⟨a', b', h', hab, hb, hv⟩ := hides_visible s
  obtain ⟨rfl, rfl⟩ := h.unique h'
  exact ⟨hab, hb, hv⟩

theorem Hides.length_visible {s : List UInt8} {a b : Nat} (h : Hides s a b) :
    (Reasoning.visible thoughtFilterInit s).length = s.length - (b - a) := by
  obtain ⟨hab, hb, hv⟩ := h.visible
  rw [hv, List.length_append, List.length_take, List.length_drop]
  omega

/-! ## Against the first block -/

theorem firstBlock_spec {s : List UInt8} {p e : Nat} (h : firstBlock s = some (p, e)) :
    openTag <+: s.drop p ∧ (∀ j < p, ¬ openTag <+: s.drop j) ∧ p + 15 ≤ e ∧ e ≤ s.length := by
  obtain ⟨p', hp, h⟩ := Option.bind_eq_some_iff.1 h
  obtain ⟨q, hq, h⟩ := Option.map_eq_some_iff.1 h
  cases h
  obtain ⟨hopen, hfirst⟩ := strstr_eq_some hp
  obtain ⟨hclose, -⟩ := strstr_eq_some hq
  have hlen := hclose.length_le
  rw [List.length_drop, List.length_drop] at hlen
  have h8 : closeTag.length = 8 := rfl
  exact ⟨hopen, hfirst, by omega, by omega⟩

/-- Two parts of the same length, the later one after text that the earlier one is followed by. -/
theorem removed_eq_iff {s : List UInt8} {p e a b : Nat} (hpa : p ≤ a) (hpe : p ≤ e) (he : e ≤ s.length) (hab : a ≤ b)
    (hb : b ≤ s.length) :
    s.take a ++ s.drop b = s.take p ++ s.drop e ↔ b - a = e - p ∧ (s.drop p).take (a - p) = (s.drop e).take (a - p) := by
  have htake : s.take a = s.take p ++ (s.drop p).take (a - p) := by
    rw [← List.take_add, Nat.add_sub_cancel' hpa]
  have hlen : ((s.drop p).take (a - p)).length = a - p := by
    rw [List.length_take, List.length_drop]
    omega
  rw [htake, List.append_assoc, List.append_cancel_left_eq]
  constructor
  · intro h
    have hsame := congrArg List.length h
    rw [List.length_append, hlen, List.length_drop, List.length_drop] at hsame
    refine ⟨by omega, ?_⟩
    rw [← h, List.take_left' hlen]
  · rintro ⟨hsame, h⟩
    have hbe : b = e + (a - p) := by omega
    rw [h, hbe, ← List.drop_drop, List.take_append_drop]

theorem visible_eq_iff (s : List UInt8) : visible thoughtFilterInit s = withoutFirstBlock s ↔ FilterOk s := by
  obtain ⟨a, b, hides, hab, hb, hv⟩ := hides_visible s
  have hok : FilterOk s ↔
      match firstBlock s with
      | none => a = b
      | some (p, e) => b - a = e - p ∧ (s.drop p).take (a - p) = (s.drop e).take (a - p) := by
    constructor
    · rintro ⟨a', b', hides', h⟩
      obtain ⟨rfl, rfl⟩ := hides.unique hides'
      exact h
    · exact fun h => ⟨a, b, hides, h⟩
  rw [hok, hv, withoutFirstBlock]
  rcases hfirst : firstBlock s with _ | ⟨p, e⟩
  · constructor
    · intro h
      have hlen : (s.take a ++ s.drop b).length = s.length := congrArg List.length h
      rw [List.length_append, List.length_take, List.length_drop] at hlen
      show a = b
      omega
    · rintro rfl
      exact List.take_append_drop ..
  · obtain ⟨hopen, hleast, hpe, he⟩ := firstBlock_spec hfirst
    have hpa : p ≤ a := by
      by_contra hap
      cases hides with
      | partialTag _ _ hpre =>
        have := hpre.length_le
        have h7 : openTag.length = 7 := rfl
        rw [List.length_drop] at this
        omega
      | unclosed ha => exact hleast a (by omega) ha.1.1
      | block ha => exact hleast a (by omega) ha.1.1
    exact removed_eq_iff hpa (by omega) he hab hb

/-! ## The output buffer -/

theorem filterLoop_fst (size : Nat) (f : ThoughtFilter) (out s : List UInt8) :
    (filterLoop size f out s).1 = filterAfter f s := by
  induction s generalizing f out with
  | nil => rfl
  | cons c s ih => exact ih _ _

/-- As long as the buffer holds all of it, it is what the filter lets through. -/
theorem filterLoop_fits {size : Nat} (f : ThoughtFilter) (out s : List UInt8)
    (h : out.length + (visible f s).length < size) : (filterLoop size f out s).2 = out ++ visible f s := by
  induction s generalizing f out with
  | nil => exact (List.append_nil out).symm
  | cons c s ih =>
    rw [visible, List.length_append] at h
    have happend : appendOut size out (filterChar f c).2 = out ++ (filterChar f c).2 := if_pos (by omega)
    rw [filterLoop, happend, ih _ _ (by rw [List.length_append]; omega), visible, List.append_assoc]

theorem filterLoop_length {size : Nat} (f : ThoughtFilter) {out : List UInt8} (s : List UInt8) (h : out.length < size) :
    (filterLoop size f out s).2.length < size := by
  induction s generalizing f out with
  | nil => exact h
  | cons c s ih =>
    refine ih _ ?_
    unfold appendOut
    split
    · next hfits => rw [List.length_append]; exact hfits
    · exact h

theorem thoughtFilterProcess_fst (f : ThoughtFilter) (piece : List UInt8) :
    (thoughtFilterProcess f piece outputSize).1 = filterAfter f piece := filterLoop_fst ..

theorem thoughtFilterProcess_fits {f : ThoughtFilter} {piece : List UInt8} (h : (visible f piece).length < outputSize) :
    (thoughtFilterProcess f piece outputSize).2 = visible f piece :=
  filterLoop_fits f [] piece (by rw [List.length_nil, Nat.zero_add]; exact h)

theorem thoughtFilterProcess_length (f : ThoughtFilter) (piece : List UInt8) :
    (thoughtFilterProcess f piece outputSize).2.length < outputSize :=
  filterLoop_length f piece (by decide : 0 < outputSize)

theorem fits_iff (s piece : List UInt8) (pieces : List (List UInt8)) :
    Fits s (piece :: pieces) ↔
      (visible (filterAfter thoughtFilterInit s) piece).length < outputSize ∧ Fits (s ++ piece) pieces := by
  obtain ⟨a, b, h, -, -, -⟩ := hides_visible s
  obtain ⟨a', b', h', -, -, -⟩ := hides_visible (s ++ piece)
  have hlen := h'.length_visible
  rw [visible_append, List.length_append, h.length_visible] at hlen
  rw [Fits]
  refine and_congr_left fun _ => ⟨fun hf => ?_, fun hlt a₁ b₁ a₁' b₁' h₁ h₁' => ?_⟩
  · have := hf a b a' b' h h'
    omega
  · obtain ⟨rfl, rfl⟩ := h.unique h₁
    obtain ⟨rfl, rfl⟩ := h'.unique h₁'
    omega

/-- The pieces are printed as the filter lets them through, or some of it is dropped. -/
theorem printPieces_cases (pieces : List (List UInt8)) (s : List UInt8) :
    (Fits s pieces → printPieces (filterAfter thoughtFilterInit s) pieces =
      visible (filterAfter thoughtFilterInit s) pieces.flatten) ∧
    (printPieces (filterAfter thoughtFilterInit s) pieces).length ≤
      (visible (filterAfter thoughtFilterInit s) pieces.flatten).length ∧
    (¬ Fits s pieces → (printPieces (filterAfter thoughtFilterInit s) pieces).length <
      (visible (filterAfter thoughtFilterInit s) pieces.flatten).length) := by
  induction pieces generalizing s with
  | nil => exact ⟨fun _ => rfl, Nat.le_refl _, fun h => absurd trivial h⟩
  | cons piece pieces ih =>
    obtain ⟨hfits, hle, hdrop⟩ := ih (s ++ piece)
    rw [filterAfter_append] at hfits hle hdrop
    rw [List.flatten_cons, visible_append, printPieces, thoughtFilterProcess_fst, fits_iff, List.length_append,
      List.length_append]
    have hlt := thoughtFilterProcess_length (filterAfter thoughtFilterInit s) piece
    by_cases hpiece : (visible (filterAfter thoughtFilterInit s) piece).length < outputSize
    · rw [thoughtFilterProcess_fits hpiece]
      refine ⟨fun h => by rw [hfits h.2], by omega, fun h => ?_⟩
      have := hdrop fun hf => h ⟨hpiece, hf⟩
      omega
    · exact ⟨fun h => absurd h.1 hpiece, by omega, fun _ => by omega⟩

/-- The text printed is the stream without its first block exactly when the tags seen hide the same
bytes, if every piece fits the buffer; and exactly when every piece fits, if they do. -/
theorem printPieces_iff (pieces : List (List UInt8)) :
    (Fits [] pieces →
      (printPieces thoughtFilterInit pieces = withoutFirstBlock pieces.flatten ↔ FilterOk pieces.flatten)) ∧
    (FilterOk pieces.flatten →
      (printPieces thoughtFilterInit pieces = withoutFirstBlock pieces.flatten ↔ Fits [] pieces)) := by
  have hvisible := visible_eq_iff pieces.flatten
  obtain ⟨hfits, -, hdrop⟩ := printPieces_cases pieces []
  change Fits [] pieces → printPieces thoughtFilterInit pieces = visible thoughtFilterInit pieces.flatten at hfits
  change ¬ Fits [] pieces → (printPieces thoughtFilterInit pieces).length <
    (visible thoughtFilterInit pieces.flatten).length at hdrop
  refine ⟨fun h => by rw [hfits h]; exact hvisible, fun hok => ⟨fun heq => ?_, fun h => ?_⟩⟩
  · by_contra h
    have hlt := hdrop h
    rw [heq, hvisible.2 hok] at hlt
    exact Nat.lt_irrefl _ hlt
  · rw [hfits h]
    exact hvisible.2 hok

theorem printPieces_iff_answer :
    printPieces thoughtFilterInit [ascii "a<th", ascii "ink>b</think>c"] =
        withoutFirstBlock [ascii "a<th", ascii "ink>b</think>c"].flatten ↔
      FilterOk [ascii "a<th", ascii "ink>b</think>c"].flatten :=
  (printPieces_iff _).1 ((fits_iff _ _ _).2 ⟨by decide, (fits_iff _ _ _).2 ⟨by decide, trivial⟩⟩)

/-- `<<think>a</think>` in one piece: the first `<` takes the second for a mismatch, and all is shown. -/
theorem restart_leaks :
    printPieces thoughtFilterInit [ascii "<<think>a</think>"] ≠ withoutFirstBlock (ascii "<<think>a</think>") := by
  decide

end BitForge.Reasoning
