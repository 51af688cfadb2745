/-
What the tag parser reports over a stream. A block of a tag goes from its first opening after the
block before to the first closing after that; the blocks of all tags stand in the order in which they
end. The parser reports them in this order, each with its text and at the latest by the next call,
as long as the text fits the buffer, no other tag opens before the end of the block it reports, and
no more than one complete block waits in the buffer.
-/
import BitForge.Agent.Interceptor

namespace BitForge.Agent

open BitForge.Lib

/-! ## The blocks of a text -/

/-- An entry of the table `tags`. -/
abbrev TagEntry := List UInt8 × List UInt8 × TITag

/-- The first block of a tag: its inner text, and the offset of its end. -/
def blockIn (entry : TagEntry) (s : List UInt8) : Option (List UInt8 × Nat) :=
  (strstr s entry.1).bind fun i =>
    (strstr (s.drop (i + entry.1.length)) entry.2.1).map fun j =>
      ((s.drop (i + entry.1.length)).take j, i + entry.1.length + j + entry.2.1.length)

/-- The inner text of the block of a tag that ends at offset `e`. -/
def endsAt (entry : TagEntry) (s : List UInt8) (e : Nat) : Option (List UInt8) :=
  match blockIn entry s with
  | none => none
  | some (inner, e') =>
    if e = e' then some inner else if e < e' ∨ e' = 0 then none else endsAt entry (s.drop e') (e - e')
termination_by e
decreasing_by omega

def blocksAt (s : List UInt8) (e : Nat) : List (TITag × List UInt8) :=
  tags.filterMap fun entry => (endsAt entry s e).map fun inner => (entry.2.2, inner)

/-- The complete blocks of a text in the order in which they end. -/
def blocks (s : List UInt8) : List (TITag × List UInt8) := (List.range (s.length + 1)).flatMap (blocksAt s)

/-! ## Runs of the parser -/

/-- What the calls for the pieces report. -/
def tiRun (outBufSize : Nat) : List UInt8 → List (List UInt8) → List (TITag × List UInt8)
  | _, [] => []
  | buffer, piece :: pieces =>
    (tiProcessPiece buffer piece outBufSize).2.toList ++ tiRun outBufSize (tiProcessPiece buffer piece outBufSize).1 pieces

/-- The reports are blocks of the stream from the first on, with their inner text cut to the caller's
buffer, and every block that was complete before the last call is reported. -/
def Intercepts (outBufSize : Nat) (pieces : List (List UInt8)) : Prop :=
  tiRun outBufSize [] pieces <+: (blocks pieces.flatten).map (Prod.map id (List.take (outBufSize - 1))) ∧
    (blocks pieces.dropLast.flatten).length ≤ (tiRun outBufSize [] pieces).length

/-- The first tag of the table with a complete block in the text has no other tag open before the end
of that block. -/
def NoOtherOpen (text : List UInt8) : Prop :=
  ∀ found ∈ findTag text tags, ∀ entry ∈ tags, entry.2.2 ≠ found.1 →
    strstr (text.take (text.length - found.2.2.length)) entry.1 = none

/-- The buffer before a call, and the piece: at most one complete block waits, and none when the piece
is empty; the piece fits; and no other tag opens before the end of the block reported. -/
structure PieceOk (buffer piece : List UInt8) : Prop where
  waiting : (blocks buffer).length ≤ 1
  empty : piece = [] → blocks buffer = []
  fits : buffer.length + piece.length < tiBufferSize
  noOtherOpen : NoOtherOpen (buffer ++ piece)

def PiecesOk : List UInt8 → List (List UInt8) → Prop
  | _, [] => True
  | buffer, piece :: pieces => PieceOk buffer piece ∧ PiecesOk (tiProcessPiece buffer piece 1).1 pieces

/-! ## The first block -/

theorem tags_ok : ∀ entry ∈ tags, entry.1 ≠ [] ∧ entry.2.1 ≠ [] ∧ 62 ∉ entry.1.dropLast ∧
    entry.2.1 = entry.2.1.dropLast ++ [62] := by decide

theorem tags_unique : ∀ entry ∈ tags, ∀ entry' ∈ tags, entry'.2.2 = entry.2.2 → entry' = entry := by decide

theorem blockIn_some {entry : TagEntry} (hmem : entry ∈ tags) {s inner : List UInt8} {e : Nat}
    (h : blockIn entry s = some (inner, e)) :
    0 < e ∧ e ≤ s.length ∧ (∃ p, s.take e = p ++ [62]) ∧ ∀ more, blockIn entry (s ++ more) = some (inner, e) := by
  obtain ⟨hopenNe, hcloseNe, -, hlast⟩ := tags_ok entry hmem
  obtain ⟨i, hi, h⟩ := Option.bind_eq_some_iff.1 h
  obtain ⟨j, hj, h⟩ := Option.map_eq_some_iff.1 h
  cases h
  have hopenPos : 0 < entry.1.length := List.length_pos_iff.2 hopenNe
  have hopenLen := strstr_length hopenNe hi
  have hcloseLen := strstr_length hcloseNe hj
  rw [List.length_drop] at hcloseLen
  refine ⟨by omega, by omega, ?_, fun more => ?_⟩
  · obtain ⟨z, hz⟩ := (strstr_eq_some hj).1
    rw [List.drop_drop] at hz
    refine ⟨s.take (i + entry.1.length + j) ++ entry.2.1.dropLast, ?_⟩
    rw [List.append_assoc, ← hlast, List.take_add, ← hz, List.take_left]
  · unfold blockIn
    rw [strstr_append hopenNe hi, Option.bind_some, List.drop_append_of_le_length (by omega), strstr_append hcloseNe hj,
      Option.map_some, List.take_append_of_le_length (by rw [List.length_drop]; omega)]

theorem findTag_cons (buffer : List UInt8) (entry : TagEntry) (rest : List TagEntry) :
    findTag buffer (entry :: rest) =
      match blockIn entry buffer with
      | none => findTag buffer rest
      | some (inner, e) => some (entry.2.2, inner, buffer.drop e) := by
  obtain ⟨opening, closing, tag⟩ := entry
  rw [findTag, blockIn]
  cases hi : strstr buffer opening with
  | none => rfl
  | some i =>
    rw [Option.bind_some]
    dsimp only
    cases hj : strstr (buffer.drop (i + opening.length)) closing with
    | none => rfl
    | some j =>
      rw [Option.map_some]
      dsimp only
      rw [List.drop_drop]
      simp only [Nat.add_assoc]

theorem findTag_none {buffer : List UInt8} : ∀ {entries : List TagEntry},
    findTag buffer entries = none → ∀ entry ∈ entries, blockIn entry buffer = none
  | [], _, entry, hmem => absurd hmem List.not_mem_nil
  | entry :: rest, h, entry', hmem => by
    rw [findTag_cons] at h
    split at h
    · next hnone =>
      rcases List.mem_cons.1 hmem with rfl | hmem
      · exact hnone
      · exact findTag_none h entry' hmem
    · cases h

theorem findTag_some {buffer inner rest : List UInt8} {tag : TITag} : ∀ {entries : List TagEntry},
    findTag buffer entries = some (tag, inner, rest) →
      ∃ entry ∈ entries, ∃ e, entry.2.2 = tag ∧ blockIn entry buffer = some (inner, e) ∧ rest = buffer.drop e
  | [], h => nomatch h
  | entry :: entries, h => by
    rw [findTag_cons] at h
    split at h
    · obtain ⟨entry', hmem, h⟩ := findTag_some h
      exact ⟨entry', List.mem_cons_of_mem _ hmem, h⟩
    · next e hsome =>
      cases h
      exact ⟨entry, List.mem_cons_self .., e, rfl, hsome, rfl⟩

/-! ## Cutting the first block off -/

theorem endsAt_zero {entry : TagEntry} (hmem : entry ∈ tags) (s : List UInt8) : endsAt entry s 0 = none := by
  unfold endsAt
  split
  · rfl
  · next e hsome =>
    have hpos := (blockIn_some hmem hsome).1
    rw [if_neg (by omega), if_pos (.inl hpos)]

theorem endsAt_none {entry : TagEntry} {s : List UInt8} (h : blockIn entry s = none) (e : Nat) : endsAt entry s e = none := by
  unfold endsAt
  rw [h]

/-- After the first block the blocks of a tag are those of the text after it. -/
theorem endsAt_cut {entry : TagEntry} (hmem : entry ∈ tags) {s inner : List UInt8} {e : Nat}
    (h : blockIn entry s = some (inner, e)) (more : List UInt8) (k : Nat) :
    endsAt entry (s ++ more) k =
      if k < e then none else if k = e then some inner else endsAt entry (s.drop e ++ more) (k - e) := by
  obtain ⟨hpos, hle, -, happend⟩ := blockIn_some hmem h
  rw [endsAt, happend more]
  dsimp only
  rw [List.drop_append_of_le_length hle]
  rcases Nat.lt_trichotomy k e with hlt | heq | hgt
  · rw [if_neg (by omega), if_pos (.inl hlt), if_pos hlt]
  · rw [if_pos heq, if_neg (by omega), if_pos heq]
  · rw [if_neg (by omega), if_neg (by omega), if_neg (by omega), if_neg (by omega)]

/-- A tag that does not open in a text that ends in `>` has its blocks behind it. -/
theorem blockIn_skip {entry : TagEntry} (hmem : entry ∈ tags) {p : List UInt8}
    (h : strstr (p ++ [62]) entry.1 = none) (more : List UInt8) :
    blockIn entry (p ++ [62] ++ more) = (blockIn entry more).map (Prod.map id ((p ++ [62]).length + ·)) := by
  obtain ⟨hopenNe, -, hnot, -⟩ := tags_ok entry hmem
  have hdrop : ∀ i, (p ++ [62] ++ more).drop ((p ++ [62]).length + i) = more.drop i := by
    intro i
    rw [← List.drop_drop, List.drop_left]
  unfold blockIn
  rw [strstr_skip hopenNe h hnot]
  cases hi : strstr more entry.1 with
  | none => rfl
  | some i =>
    rw [Option.map_some, Option.bind_some, Option.bind_some, Nat.add_assoc, hdrop]
    cases hj : strstr (more.drop (i + entry.1.length)) entry.2.1 with
    | none => rfl
    | some j =>
      simp only [Option.map_some, Prod.map, id, Nat.add_assoc]

theorem endsAt_skip {entry : TagEntry} (hmem : entry ∈ tags) {p : List UInt8}
    (h : strstr (p ++ [62]) entry.1 = none) (more : List UInt8) (k : Nat) :
    endsAt entry (p ++ [62] ++ more) k =
      if k ≤ (p ++ [62]).length then none else endsAt entry more (k - (p ++ [62]).length) := by
  have hskip := blockIn_skip hmem h more
  cases hmore : blockIn entry more with
  | none =>
    rw [hmore, Option.map_none] at hskip
    rw [endsAt_none hskip, endsAt_none hmore, ite_self]
  | some b =>
    obtain ⟨inner, e⟩ := b
    obtain ⟨hpos, hle, -, -⟩ := blockIn_some hmem hmore
    rw [hmore, Option.map_some] at hskip
    rw [endsAt, hskip]
    dsimp only [Prod.map, id]
    have hdrop : (p ++ [62] ++ more).drop ((p ++ [62]).length + e) = more.drop e := by
      rw [← List.drop_drop, List.drop_left]
    rw [hdrop]
    generalize (p ++ [62]).length = n
    rcases Nat.lt_or_ge n k with hlt | hge
    · rw [if_neg (by omega : ¬ k ≤ n)]
      conv_rhs => rw [endsAt, hmore]
      dsimp only
      rcases Nat.lt_trichotomy (k - n) e with h1 | h1 | h1
      · rw [if_neg (by omega), if_pos (by omega), if_neg (by omega), if_pos (by omega)]
      · rw [if_pos (by omega), if_pos h1]
      · rw [if_neg (by omega), if_neg (by omega), if_neg (by omega), if_neg (by omega), Nat.sub_add_eq]
    · rw [if_pos hge, if_neg (by omega), if_pos (by omega)]

theorem filterMap_tag (tag : TITag) (x : TITag × List UInt8) :
    (tags.filterMap fun entry => if entry.2.2 = tag then some x else none) = [x] := by
  cases tag <;> rfl

theorem flatMap_range_cut {β : Type} (f g : Nat → List β) {n : Nat} (x : β) (hbefore : ∀ k < n, f k = [])
    (hat : f n = [x]) (hafter : ∀ k, 0 < k → f (n + k) = g k) (hzero : g 0 = []) (m : Nat) :
    (List.range (n + (m + 1))).flatMap f = x :: (List.range (m + 1)).flatMap g := by
  have hstart : (List.range n).flatMap f = [] := by
    rw [List.flatMap_eq_nil_iff]
    exact fun k hk => hbefore k (List.mem_range.1 hk)
  have htail : (List.map Nat.succ (List.range m)).flatMap (fun k => f (n + k)) =
      (List.map Nat.succ (List.range m)).flatMap g := by
    refine List.flatMap_congr fun k hk => hafter k ?_
    obtain ⟨j, -, rfl⟩ := List.mem_map.1 hk
    exact Nat.succ_pos j
  rw [List.range_add, List.flatMap_append, hstart, List.nil_append, List.flatMap_map, List.range_succ_eq_map,
    List.flatMap_cons, List.flatMap_cons, Nat.add_zero, hat, hzero, htail]
  rfl

/-- The block that is found first is the first of the blocks, when no other tag opens before its end. -/
theorem blocks_cut {text inner rest : List UInt8} {tag : TITag} (h : findTag text tags = some (tag, inner, rest))
    (hother : NoOtherOpen text) (more : List UInt8) : blocks (text ++ more) = (tag, inner) :: blocks (rest ++ more) := by
  obtain ⟨entry, hmem, e, rfl, hblock, rfl⟩ := findTag_some h
  obtain ⟨hpos, hle, ⟨p, hp⟩, -⟩ := blockIn_some hmem hblock
  have hlen : (p ++ [62]).length = e := by rw [← hp, List.length_take]; omega
  have hsplit : text ++ more = p ++ [62] ++ (text.drop e ++ more) := by
    rw [← hp, ← List.append_assoc, List.take_append_drop]
  have hnone : ∀ entry' ∈ tags, entry'.2.2 ≠ entry.2.2 → strstr (p ++ [62]) entry'.1 = none := by
    intro entry' hmem' hne
    have := hother _ h entry' hmem' hne
    rwa [List.length_drop, Nat.sub_sub_self hle, hp] at this
  have hafter : ∀ entry' ∈ tags, ∀ k, 0 < k →
      endsAt entry' (text ++ more) (e + k) = endsAt entry' (text.drop e ++ more) k := by
    intro entry' hmem' k hk
    by_cases heq : entry'.2.2 = entry.2.2
    · obtain rfl := tags_unique entry hmem entry' hmem' heq
      rw [endsAt_cut hmem' hblock, if_neg (by omega), if_neg (by omega), Nat.add_sub_cancel_left]
    · rw [hsplit, endsAt_skip hmem' (hnone entry' hmem' heq), hlen, if_neg (by omega), Nat.add_sub_cancel_left]
  have hupto : ∀ entry' ∈ tags, ∀ k ≤ e, endsAt entry' (text ++ more) k =
      if entry'.2.2 = entry.2.2 ∧ k = e then some inner else none := by
    intro entry' hmem' k hk
    by_cases heq : entry'.2.2 = entry.2.2
    · obtain rfl := tags_unique entry hmem entry' hmem' heq
      rw [endsAt_cut hmem' hblock]
      rcases Nat.lt_or_ge k e with hlt | hge
      · rw [if_pos hlt, if_neg (by omega)]
      · rw [if_neg (by omega), if_pos (by omega), if_pos ⟨rfl, by omega⟩]
    · rw [hsplit, endsAt_skip hmem' (hnone entry' hmem' heq), hlen, if_pos hk, if_neg fun hc => heq hc.1]
  have hlength : (text ++ more).length + 1 = e + ((text.drop e ++ more).length + 1) := by
    rw [hsplit, List.length_append, hlen]
    omega
  unfold blocks
  rw [hlength]
  refine flatMap_range_cut _ _ (entry.2.2, inner) (fun k hk => ?_) ?_ (fun k hk => ?_) ?_ _
  · rw [blocksAt, List.filterMap_eq_nil_iff]
    intro entry' hmem'
    rw [hupto entry' hmem' k (Nat.le_of_lt hk), if_neg (by omega), Option.map_none]
  · rw [blocksAt, ← filterMap_tag entry.2.2 (entry.2.2, inner)]
    refine List.filterMap_congr fun entry' hmem' => ?_
    rw [hupto entry' hmem' e (Nat.le_refl e)]
    by_cases heq : entry'.2.2 = entry.2.2
    · rw [if_pos ⟨heq, rfl⟩, if_pos heq, Option.map_some, heq]
    · rw [if_neg fun hc => heq hc.1, if_neg heq, Option.map_none]
  · refine List.filterMap_congr fun entry' hmem' => ?_
    rw [hafter entry' hmem' k hk]
  · rw [blocksAt, List.filterMap_eq_nil_iff]
    intro entry' hmem'
    rw [endsAt_zero hmem', Option.map_none]

/-- Without a tag found there is no complete block. -/
theorem blocks_none {text : List UInt8} (h : findTag text tags = none) : blocks text = [] := by
  rw [blocks, List.flatMap_eq_nil_iff]
  intro k _
  rw [blocksAt, List.filterMap_eq_nil_iff]
  intro entry hmem
  rw [endsAt_none (findTag_none h entry hmem), Option.map_none]

theorem findTag_append {text : List UInt8} (h : findTag text tags ≠ none) (more : List UInt8) :
    findTag (text ++ more) tags ≠ none := by
  intro hnone
  obtain ⟨⟨tag, inner, rest⟩, hsome⟩ := Option.ne_none_iff_exists'.1 h
  obtain ⟨entry, hmem, e, -, hblock, -⟩ := findTag_some hsome
  have hmore := (blockIn_some hmem hblock).2.2.2 more
  rw [findTag_none hnone entry hmem] at hmore
  cases hmore

/-! ## Runs -/

/-- One call whose step is in order: it reports the first block of the text and leaves the others. -/
theorem tiProcessPiece_ok {buffer piece : List UInt8} (h : PieceOk buffer piece) (outBufSize : Nat) :
    ∃ found : Option (TITag × List UInt8),
      (tiProcessPiece buffer piece outBufSize).2 = found.map (Prod.map id (List.take (outBufSize - 1))) ∧
      (∀ more, blocks (buffer ++ piece ++ more) =
        found.toList ++ blocks ((tiProcessPiece buffer piece outBufSize).1 ++ more)) ∧
      (blocks buffer).length ≤ found.toList.length ∧
      (tiProcessPiece buffer piece outBufSize).1 = (tiProcessPiece buffer piece 1).1 := by
  unfold tiProcessPiece
  by_cases hempty : piece = []
  · rw [if_pos hempty, if_pos hempty]
    refine ⟨none, rfl, fun more => by rw [hempty, List.append_nil]; rfl, ?_, rfl⟩
    rw [h.empty hempty]
    exact Nat.le_refl _
  · have hfits := h.fits
    have htake : piece.take (tiBufferSize - 1 - buffer.length) = piece := List.take_of_length_le (by omega)
    rw [if_neg hempty, if_neg hempty]
    dsimp only
    rw [htake]
    cases hfound : findTag (buffer ++ piece) tags with
    | none =>
      refine ⟨none, rfl, fun more => rfl, ?_, rfl⟩
      have hbuffer : findTag buffer tags = none := by
        by_contra hne
        exact findTag_append hne piece hfound
      rw [blocks_none hbuffer]
      exact Nat.le_refl _
    | some found =>
      obtain ⟨tag, inner, rest⟩ := found
      exact ⟨some (tag, inner), rfl, blocks_cut hfound h.noOtherOpen, h.waiting, rfl⟩

theorem tiRun_ok (outBufSize : Nat) (pieces : List (List UInt8)) (buffer : List UInt8) (h : PiecesOk buffer pieces) :
    ∃ found : List (TITag × List UInt8), ∃ rest,
      tiRun outBufSize buffer pieces = found.map (Prod.map id (List.take (outBufSize - 1))) ∧
      (∀ more, blocks (buffer ++ pieces.flatten ++ more) = found ++ blocks (rest ++ more)) ∧
      (blocks (buffer ++ pieces.dropLast.flatten)).length ≤ found.length + (if pieces = [] then (blocks buffer).length else 0) := by
  induction pieces generalizing buffer with
  | nil =>
    refine ⟨[], buffer, rfl, fun more => by rw [List.flatten_nil, List.append_nil]; rfl, ?_⟩
    simp
  | cons piece pieces ih =>
    obtain ⟨hstep, hrest⟩ := h
    obtain ⟨found, hreport, hblocks, hcount, hbuffer⟩ := tiProcessPiece_ok hstep outBufSize
    rw [← hbuffer] at hrest
    obtain ⟨found', rest, hrun, hblocks', hcount'⟩ := ih _ hrest
    refine ⟨found.toList ++ found', rest, ?_, fun more => ?_, ?_⟩
    · rw [tiRun, hreport, hrun, List.map_append]
      cases found <;> rfl
    · rw [List.flatten_cons, ← List.append_assoc buffer, List.append_assoc (buffer ++ piece), hblocks, ← List.append_assoc,
        hblocks', List.append_assoc]
    · rw [if_neg (List.cons_ne_nil piece pieces), Nat.add_zero, List.length_append]
      cases pieces with
      | nil =>
        rw [List.dropLast_singleton, List.flatten_nil, List.append_nil]
        omega
      | cons next pieces =>
        rw [if_neg (List.cons_ne_nil next pieces), Nat.add_zero] at hcount'
        rw [List.dropLast_cons_of_ne_nil (List.cons_ne_nil next pieces), List.flatten_cons, ← List.append_assoc, hblocks,
          List.length_append]
        omega

/-- In a run whose steps are in order every block is reported. -/
theorem tiRun_intercepts (outBufSize : Nat) (pieces : List (List UInt8)) (h : PiecesOk [] pieces) :
    Intercepts outBufSize pieces := by
  obtain ⟨found, rest, hrun, hblocks, hcount⟩ := tiRun_ok outBufSize pieces [] h
  have hstream := hblocks []
  rw [List.nil_append, List.append_nil] at hstream
  refine ⟨?_, ?_⟩
  · rw [hrun, hstream, List.map_append]
    exact List.prefix_append ..
  · rw [hrun, List.length_map]
    have hempty : (blocks []).length = 0 := by rw [blocks_none rfl]; rfl
    rw [List.nil_append] at hcount
    split at hcount <;> omega

theorem tiRun_intercepts_search : Intercepts 4096 [ascii "a<ex", ascii "ec>ls</exec>b"] :=
  tiRun_intercepts 4096 _
    ⟨⟨by decide +kernel, nofun, by decide, by unfold NoOtherOpen; decide⟩,
      ⟨by decide +kernel, nofun, by decide, by unfold NoOtherOpen; decide⟩, trivial⟩

/-- A `<think>` block and an `<exec>` block in one piece: the first is never reported. -/
theorem table_order : ¬ Intercepts 4096 [ascii "<think>a</think><exec>b</exec>"] := by
  unfold Intercepts
  decide +kernel

end BitForge.Agent
