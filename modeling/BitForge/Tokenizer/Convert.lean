/-
The converter `tools/convert_tokenizer.py` of HuggingFace's `tokenizer.json`, and what `tokenizer_load` makes of its
files. Strings are their UTF-8 bytes, dictionaries the lists of their items in order.
-/
import BitForge.Tokenizer.Vocabulary

namespace BitForge.Tokenizer

open Lib

/-- A merge is a string, or the list of its parts. -/
inductive MergeEntry
  | text (s : List UInt8)
  | parts (ss : List (List UInt8))
deriving DecidableEq

/-- As much of `tokenizer.json` as is read: `model.vocab`, `added_tokens` with their contents and ids, `model.merges`. -/
structure TokenizerJson where
  vocab : Option (List (List UInt8 × Nat))
  addedTokens : Option (List (List UInt8 × Nat))
  merges : List MergeEntry

/-! ## The converter -/

/-- `vocab[content] = id`. -/
def dictSet (vocab : List (List UInt8 × Nat)) (content : List UInt8) (id : Nat) : List (List UInt8 × Nat) :=
  if ∃ p ∈ vocab, p.1 = content then vocab.map fun p => if p.1 = content then (content, id) else p
  else vocab ++ [(content, id)]

def dictGet (vocab : List (List UInt8 × Nat)) (content : List UInt8) : Option Nat :=
  (vocab.find? fun p => p.1 = content).map Prod.snd

/-- The loop over the added tokens; `existing` is `existing_ids`. -/
def addTokens (vocab : List (List UInt8 × Nat)) (existing : List Nat) : List (List UInt8 × Nat) → List (List UInt8 × Nat)
  | [] => vocab
  | (content, id) :: entries =>
    if id ∈ existing then addTokens vocab existing entries
    else addTokens (dictSet vocab content id) (id :: existing) entries

/-- The vocabulary before the added tokens go in. -/
def TokenizerJson.base (j : TokenizerJson) : List (List UInt8 × Nat) :=
  match j.vocab with
  | some vocab => vocab
  | none => (j.addedTokens.getD []).foldl (fun vocab p => dictSet vocab p.1 p.2) []

def TokenizerJson.fullVocab (j : TokenizerJson) : List (List UInt8 × Nat) :=
  addTokens j.base (j.base.map Prod.snd) (j.addedTokens.getD [])

def maxOf (ns : List Nat) : Nat := ns.foldl max 0

def vocabSizeOf (vocab : List (List UInt8 × Nat)) : Nat := maxOf (vocab.map Prod.snd) + 1

def maxTokenLenOf (vocab : List (List UInt8 × Nat)) : Nat := maxOf (vocab.map fun p => p.1.length)

/-- `tokens`: the string of each id, empty where there is none. -/
def tokensOf (vocab : List (List UInt8 × Nat)) : List (List UInt8) :=
  vocab.foldl (fun tokens p => tokens.set p.2 p.1) (List.replicate (vocabSizeOf vocab) [])

/-- `merged_token`. -/
def MergeEntry.mergedToken : MergeEntry → List UInt8
  | text s => s.filter (· ≠ 32)
  | parts ss => ss.flatten.filter (· ≠ 32)

/-- The loop over the merges, from the merge `i` on: the score `-(i + 1)`, as the bits of a float. -/
def mergeScoresFrom (vocab : List (List UInt8 × Nat)) : Nat → List Nat → List MergeEntry → List Nat
  | _, scores, [] => scores
  | i, scores, merge :: merges =>
    let scores := match dictGet vocab merge.mergedToken with
      | some id => scores.set id (Single.neg (Single.ofNat (i + 1)))
      | none => scores
    mergeScoresFrom vocab (i + 1) scores merges

def scoresOf (vocab : List (List UInt8 × Nat)) (merges : List MergeEntry) : List Nat :=
  mergeScoresFrom vocab 0 (List.replicate (vocabSizeOf vocab) 0) merges

/-- A score, a length and a string, as they are packed. -/
def packToken (p : List UInt8 × Nat) : List UInt8 := le32 p.2 ++ (le32 p.1.length ++ p.1)

/-- `convert_hf_tokenizer`; `none` where it exits or `struct.pack` raises. -/
def convertHfTokenizer (j : TokenizerJson) : Option (List UInt8) :=
  if j.base = [] then none
  else if 2 ^ 31 ≤ vocabSizeOf j.fullVocab ∨ 2 ^ 31 ≤ maxTokenLenOf j.fullVocab then none
  else some (le32 (vocabSizeOf j.fullVocab) ++ (le32 (maxTokenLenOf j.fullVocab) ++
    ((tokensOf j.fullVocab).zip (scoresOf j.fullVocab j.merges)).flatMap packToken))

/-! ## The arrays -/

section

variable {vocab : List (List UInt8 × Nat)}

theorem foldl_max_ge : ∀ (ns : List Nat) (a : Nat), a ≤ ns.foldl max a ∧ ∀ n ∈ ns, n ≤ ns.foldl max a
  | [], a => ⟨Nat.le_refl a, fun _ h => absurd h List.not_mem_nil⟩
  | n :: ns, a => by
    obtain ⟨ha, hall⟩ := foldl_max_ge ns (max a n)
    refine ⟨(Nat.le_max_left a n).trans ha, fun k hk => ?_⟩
    rcases List.mem_cons.1 hk with rfl | hk
    · exact (Nat.le_max_right a k).trans ha
    · exact hall k hk

theorem le_maxOf {ns : List Nat} {n : Nat} (h : n ∈ ns) : n ≤ maxOf ns := (foldl_max_ge ns 0).2 n h

theorem id_lt_vocabSizeOf {p : List UInt8 × Nat} (h : p ∈ vocab) : p.2 < vocabSizeOf vocab :=
  Nat.lt_succ_of_le (le_maxOf (List.mem_map_of_mem h))

theorem length_le_maxTokenLenOf {p : List UInt8 × Nat} (h : p ∈ vocab) : p.1.length ≤ maxTokenLenOf vocab :=
  le_maxOf (List.mem_map.2 ⟨p, h, rfl⟩)

theorem length_foldl_set : ∀ (l : List (List UInt8 × Nat)) (tokens : List (List UInt8)),
    (l.foldl (fun tokens p => tokens.set p.2 p.1) tokens).length = tokens.length
  | [], _ => rfl
  | p :: l, tokens => by rw [List.foldl_cons, length_foldl_set l, List.length_set]

theorem length_tokensOf : (tokensOf vocab).length = vocabSizeOf vocab := by
  unfold tokensOf
  rw [length_foldl_set, List.length_replicate]

/-- The string of an id was there before, or is an item with the id. -/
theorem getD_foldl_set : ∀ (l : List (List UInt8 × Nat)) (tokens : List (List UInt8)) (id : Nat),
    (l.foldl (fun tokens p => tokens.set p.2 p.1) tokens).getD id [] = tokens.getD id [] ∨
      ((l.foldl (fun tokens p => tokens.set p.2 p.1) tokens).getD id [], id) ∈ l
  | [], _, _ => .inl rfl
  | p :: l, tokens, id => by
    rw [List.foldl_cons]
    rcases getD_foldl_set l (tokens.set p.2 p.1) id with h | h
    · by_cases hid : p.2 = id ∧ id < tokens.length
      · obtain ⟨rfl, hlt⟩ := hid
        right
        rw [h, List.getD_eq_getElem?_getD, List.getElem?_set_self hlt, Option.getD_some]
        exact List.mem_cons_self
      · left
        rw [h, List.getD_eq_getElem?_getD, List.getD_eq_getElem?_getD]
        by_cases hp : p.2 = id
        · subst hp
          have hge : tokens.length ≤ p.2 := Nat.le_of_not_lt fun hlt => hid ⟨rfl, hlt⟩
          rw [List.getElem?_eq_none (by rw [List.length_set]; exact hge), List.getElem?_eq_none hge]
        · rw [List.getElem?_set_ne hp]
    · exact .inr (List.mem_cons_of_mem p h)

theorem foldl_set_other {i : Nat} : ∀ (l : List (List UInt8 × Nat)) (tokens : List (List UInt8)), (∀ q ∈ l, q.2 ≠ i) →
    (l.foldl (fun tokens p => tokens.set p.2 p.1) tokens).getD i [] = tokens.getD i []
  | [], _, _ => rfl
  | q :: l, tokens, h => by
    rw [List.foldl_cons, foldl_set_other l _ fun r hr => h r (List.mem_cons_of_mem _ hr), List.getD_eq_getElem?_getD,
      List.getElem?_set_ne (h q List.mem_cons_self), List.getD_eq_getElem?_getD]

theorem foldl_set_item : ∀ (l : List (List UInt8 × Nat)) (tokens : List (List UInt8)), (l.map Prod.snd).Nodup →
    ∀ p ∈ l, p.2 < tokens.length → (l.foldl (fun tokens p => tokens.set p.2 p.1) tokens).getD p.2 [] = p.1
  | q :: l, tokens, hids, p, hp, hlt => by
    rw [List.map_cons, List.nodup_cons] at hids
    rw [List.foldl_cons]
    rcases List.mem_cons.1 hp with rfl | hp
    · rw [foldl_set_other l _ fun r hr he => hids.1 (List.mem_map.2 ⟨r, hr, he⟩), List.getD_eq_getElem?_getD,
        List.getElem?_set_self hlt, Option.getD_some]
    · exact foldl_set_item l _ hids.2 p hp (by rwa [List.length_set])

/-- Where no id is given twice, each item has its string. -/
theorem tokensOf_item (hids : (vocab.map Prod.snd).Nodup) {p : List UInt8 × Nat} (hp : p ∈ vocab) :
    (tokensOf vocab).getD p.2 [] = p.1 :=
  foldl_set_item vocab _ hids p hp (by rw [List.length_replicate]; exact id_lt_vocabSizeOf hp)

variable (vocab) in
theorem tokensOf_mem (id : Nat) : (tokensOf vocab).getD id [] = [] ∨ ((tokensOf vocab).getD id [], id) ∈ vocab := by
  unfold tokensOf
  rcases getD_foldl_set vocab (List.replicate (vocabSizeOf vocab) []) id with h | h
  · left
    rw [h, List.getD_eq_getElem?_getD, List.getElem?_replicate]
    split_ifs <;> rfl
  · exact .inr h

theorem length_mergeScoresFrom : ∀ (merges : List MergeEntry) (i : Nat) (scores : List Nat),
    (mergeScoresFrom vocab i scores merges).length = scores.length
  | [], _, _ => rfl
  | merge :: merges, i, scores => by
    rw [mergeScoresFrom, length_mergeScoresFrom merges]
    cases dictGet vocab merge.mergedToken with
    | none => rfl
    | some id => exact List.length_set

theorem length_scoresOf {merges : List MergeEntry} : (scoresOf vocab merges).length = vocabSizeOf vocab := by
  unfold scoresOf
  rw [length_mergeScoresFrom, List.length_replicate]

theorem mergeScoresFrom_lt : ∀ (merges : List MergeEntry) (i : Nat) (scores : List Nat), i + merges.length < 2 ^ 64 →
    (∀ x ∈ scores, x < 2 ^ 32) → ∀ x ∈ mergeScoresFrom vocab i scores merges, x < 2 ^ 32
  | [], _, _, _, h => h
  | merge :: merges, i, scores, hi, h => by
    rw [List.length_cons] at hi
    refine mergeScoresFrom_lt merges (i + 1) _ (by omega) ?_
    cases dictGet vocab merge.mergedToken with
    | none => exact h
    | some id =>
      intro x hx
      rcases List.mem_or_eq_of_mem_set hx with hx | rfl
      · exact h x hx
      · have hle := Single.ofNat_le (n := i + 1) (by omega)
        unfold Single.neg
        omega

theorem scoresOf_lt {merges : List MergeEntry} (h : merges.length < 2 ^ 64) : ∀ x ∈ scoresOf vocab merges, x < 2 ^ 32 :=
  mergeScoresFrom_lt merges 0 _ (by omega) fun x hx => by
    rw [List.eq_of_mem_replicate hx]
    exact Nat.two_pow_pos 32

/-! ## The dictionary -/

theorem dictSet_nodup {content : List UInt8} {id : Nat} (h : (vocab.map Prod.fst).Nodup) :
    ((dictSet vocab content id).map Prod.fst).Nodup := by
  unfold dictSet
  split_ifs with hmem
  · have hkeys : (vocab.map fun p => if p.1 = content then (content, id) else p).map Prod.fst = vocab.map Prod.fst := by
      rw [List.map_map]
      refine List.map_congr_left fun p _ => ?_
      dsimp only [Function.comp]
      split_ifs with hp
      · exact hp.symm
      · rfl
    rw [hkeys]
    exact h
  · rw [List.map_append, List.nodup_append]
    exact ⟨h, List.nodup_singleton _, fun a ha b hb => by
      rintro rfl
      obtain rfl : a = content := List.mem_singleton.1 hb
      exact hmem (List.mem_map.1 ha)⟩

theorem addTokens_nodup : ∀ (entries : List (List UInt8 × Nat)) {vocab : List (List UInt8 × Nat)} {existing : List Nat},
    (vocab.map Prod.fst).Nodup → ((addTokens vocab existing entries).map Prod.fst).Nodup
  | [], _, _, h => h
  | (content, id) :: entries, vocab, existing, h => by
    rw [addTokens]
    split_ifs
    · exact addTokens_nodup entries h
    · exact addTokens_nodup entries (dictSet_nodup h)

theorem foldl_dictSet_nodup : ∀ (entries : List (List UInt8 × Nat)) {vocab : List (List UInt8 × Nat)},
    (vocab.map Prod.fst).Nodup → ((entries.foldl (fun vocab p => dictSet vocab p.1 p.2) vocab).map Prod.fst).Nodup
  | [], _, h => h
  | _ :: entries, _, h => foldl_dictSet_nodup entries (dictSet_nodup h)

theorem TokenizerJson.fullVocab_nodup {j : TokenizerJson} (h : ∀ vocab, j.vocab = some vocab → (vocab.map Prod.fst).Nodup) :
    (j.fullVocab.map Prod.fst).Nodup := by
  refine addTokens_nodup _ ?_
  unfold TokenizerJson.base
  cases hv : j.vocab with
  | some vocab => exact h vocab hv
  | none => exact foldl_dictSet_nodup _ List.nodup_nil

end

/-! ## Reading the file -/

theorem readToken_pack {maxTokenLen : Int} {p : List UInt8 × Nat} (hscore : p.2 < 2 ^ 32)
    (hlen : (p.1.length : Int) ≤ maxTokenLen) (hmax : maxTokenLen < 2 ^ 31) (rest : List UInt8) :
    readToken maxTokenLen (packToken p ++ rest) = some ((p.2, untilNul p.1), rest) := by
  have hbytes : packToken p ++ rest = le32 p.2 ++ (le32 p.1.length ++ (p.1 ++ rest)) := by
    unfold packToken
    rw [List.append_assoc, List.append_assoc]
  have h0 : rd32 (packToken p ++ rest) 0 = p.2 := by
    rw [hbytes, rd32_le32_append, Nat.mod_eq_of_lt hscore]
  have h4 : toInt32 (rd32 (packToken p ++ rest) 4) = p.1.length := by
    rw [hbytes]
    have hskip := rd32_append_right (le32 p.2) (le32 p.1.length ++ (p.1 ++ rest)) 0
    rw [show (le32 p.2).length + 0 = 4 from rfl] at hskip
    rw [hskip, rd32_le32_append, toInt32_mod, toInt32_of_lt (by omega)]
  have hdrop : (packToken p ++ rest).drop 8 = p.1 ++ rest := by
    rw [hbytes, ← List.append_assoc]
    exact List.drop_left' rfl
  have hge : ¬ (packToken p ++ rest).length < 8 := by
    have h8 : (le32 p.2).length = 4 ∧ (le32 p.1.length).length = 4 := ⟨rfl, rfl⟩
    rw [hbytes, List.length_append, List.length_append]
    omega
  unfold readToken
  dsimp only
  rw [if_neg hge, h4, if_neg (by omega), hdrop, Int.toNat_natCast, if_neg (by rw [List.length_append]; omega),
    List.take_left, List.drop_left, h0]

theorem readTokens_pack {maxTokenLen : Int} (hmax : maxTokenLen < 2 ^ 31) : ∀ (ps : List (List UInt8 × Nat)),
    (∀ p ∈ ps, p.2 < 2 ^ 32 ∧ (p.1.length : Int) ≤ maxTokenLen) →
    readTokens maxTokenLen ps.length (ps.flatMap packToken) = some (ps.map fun p => (p.2, untilNul p.1))
  | [], _ => rfl
  | p :: ps, h => by
    obtain ⟨hscore, hlen⟩ := h p List.mem_cons_self
    rw [List.length_cons, List.flatMap_cons, readTokens, readToken_pack hscore hlen hmax]
    dsimp only [Option.bind_eq_bind, Option.bind_some]
    rw [readTokens_pack hmax ps fun q hq => h q (List.mem_cons_of_mem p hq)]
    rfl

/-- The header words as the loader reads them. -/
theorem header_words {size maxLen : Nat} (hsize : size < 2 ^ 31) (hmax : maxLen < 2 ^ 31) (records : List UInt8) :
    let file := le32 size ++ (le32 maxLen ++ records)
    ¬ file.length < 8 ∧ toInt32 (rd32 file 0) = size ∧ toInt32 (rd32 file 4) = maxLen ∧ file.drop 8 = records := by
  intro file
  refine ⟨?_, ?_, ?_, ?_⟩
  · have h8 : (le32 size).length = 4 ∧ (le32 maxLen).length = 4 := ⟨rfl, rfl⟩
    rw [List.length_append, List.length_append]
    omega
  · rw [rd32_le32_append, toInt32_mod, toInt32_of_lt hsize]
  · have hskip := rd32_append_right (le32 size) (le32 maxLen ++ records) 0
    rw [show (le32 size).length + 0 = 4 from rfl] at hskip
    rw [hskip, rd32_le32_append, toInt32_mod, toInt32_of_lt hmax]
  · change (le32 size ++ (le32 maxLen ++ records)).drop 8 = records
    rw [← List.append_assoc]
    exact List.drop_left' rfl

/-- A vocabulary or a longest string beyond the limits is rejected. -/
theorem tokenizerLoad_none {file : List UInt8} {size maxLen : Nat} (hge : ¬ file.length < 8)
    (h0 : toInt32 (rd32 file 0) = size) (h4 : toInt32 (rd32 file 4) = maxLen)
    (hbad : ¬ (0 < size ∧ size ≤ 1000000 ∧ 0 < maxLen ∧ maxLen ≤ 4096)) : tokenizerLoad file = none := by
  unfold tokenizerLoad
  rw [if_neg hge]
  by_cases hs : 0 < size ∧ size ≤ 1000000
  · exact (if_neg (by rw [h0]; omega)).trans (if_pos (by rw [h4]; omega))
  · exact if_pos (by rw [h0]; omega)

theorem tokenizerLoad_some {file records : List UInt8} {size maxLen : Nat} {tokens : List (Nat × List UInt8)}
    (hge : ¬ file.length < 8) (h0 : toInt32 (rd32 file 0) = size) (h4 : toInt32 (rd32 file 4) = maxLen)
    (hdrop : file.drop 8 = records) (hok : 0 < size ∧ size ≤ 1000000 ∧ 0 < maxLen ∧ maxLen ≤ 4096)
    (hread : readTokens maxLen size records = some tokens) :
    ∃ t, tokenizerLoad file = some t ∧ t.vocab = tokens.map Prod.snd ∧ t.vocabScores = tokens.map Prod.fst ∧
      t.vocabSize = size ∧ t.maxTokenLen = maxLen := by
  have hread' : readTokens (toInt32 (rd32 file 4)) (toInt32 (rd32 file 0)).toNat (file.drop 8) = some tokens := by
    rw [h0, h4, hdrop, Int.toNat_natCast, hread]
  have hcases : ¬ (toInt32 (rd32 file 0) ≤ 0 ∨ 1000000 < toInt32 (rd32 file 0)) ∧
      ¬ (toInt32 (rd32 file 4) ≤ 0 ∨ 4096 < toInt32 (rd32 file 4)) := by
    rw [h0, h4]
    omega
  fun_cases tokenizerLoad file
  · next hlt => exact absurd hlt hge
  · next hbad => exact absurd hbad hcases.1
  · next hbad => exact absurd hbad hcases.2
  · next hnone =>
    rw [hread'] at hnone
    cases hnone
  · next tokens' hsome _ _ =>
    rw [hread'] at hsome
    cases hsome
    refine ⟨_, rfl, rfl, rfl, ?_, h4⟩
    exact (congrArg Int.toNat h0).trans (Int.toNat_natCast size)

/-! ## The round trip -/

/-- `convert_hf_tokenizer` and then `tokenizer_load`. The file loads if and only if the vocabulary and its longest string
keep to the limits of the loader, and then the tokenizer has the strings and scores of the `tokenizer.json` under their ids;
where no string contains a NUL byte, each that is not empty is found under the id it was written for. Where no id is given
twice, that is so for each item of the vocabulary. -/
theorem tokenizerLoad_convert (j : TokenizerJson) (file : List UInt8) (h : convertHfTokenizer j = some file)
    (hkeys : ∀ vocab, j.vocab = some vocab → (vocab.map Prod.fst).Nodup) (hmerges : j.merges.length < 2 ^ 64) :
    ((tokenizerLoad file).isSome ↔
        vocabSizeOf j.fullVocab ≤ 1000000 ∧ 0 < maxTokenLenOf j.fullVocab ∧ maxTokenLenOf j.fullVocab ≤ 4096) ∧
      ∀ t, tokenizerLoad file = some t → t.vocabSize = vocabSizeOf j.fullVocab ∧ t.maxTokenLen = maxTokenLenOf j.fullVocab ∧
        (∀ id, t.str id = untilNul ((tokensOf j.fullVocab).getD id []) ∧
          t.score id = (scoresOf j.fullVocab j.merges).getD id 0) ∧
        ((∀ p ∈ j.fullVocab, 0 ∉ p.1) → ∀ id s, (tokensOf j.fullVocab).getD id [] = s → s ≠ [] → t.lookup s = some id) ∧
        ((j.fullVocab.map Prod.snd).Nodup → ∀ p ∈ j.fullVocab, t.str p.2 = untilNul p.1 ∧
          ((∀ q ∈ j.fullVocab, 0 ∉ q.1) → p.1 ≠ [] → t.lookup p.1 = some p.2)) := by
  unfold convertHfTokenizer at h
  split_ifs at h with hbase hbig
  cases h
  obtain ⟨hsize, hmax⟩ : vocabSizeOf j.fullVocab < 2 ^ 31 ∧ maxTokenLenOf j.fullVocab < 2 ^ 31 := by omega
  have hlen : ((tokensOf j.fullVocab).zip (scoresOf j.fullVocab j.merges)).length = vocabSizeOf j.fullVocab := by
    rw [List.length_zip, length_tokensOf, length_scoresOf, Nat.min_self]
  have hread := @readTokens_pack (maxTokenLenOf j.fullVocab) (by omega)
    ((tokensOf j.fullVocab).zip (scoresOf j.fullVocab j.merges)) fun p hp => by
      obtain ⟨htok, hsc⟩ := List.of_mem_zip hp
      refine ⟨scoresOf_lt hmerges _ hsc, ?_⟩
      obtain ⟨id, hid⟩ := List.mem_iff_getElem?.1 htok
      have hstr : (tokensOf j.fullVocab).getD id [] = p.1 := by rw [List.getD_eq_getElem?_getD, hid, Option.getD_some]
      rcases tokensOf_mem j.fullVocab id with h0 | hmem
      · rw [← hstr, h0]
        exact Int.natCast_nonneg _
      · rw [hstr] at hmem
        exact_mod_cast length_le_maxTokenLenOf hmem
  rw [hlen] at hread
  obtain ⟨hge, h0, h4, hdrop⟩ := header_words hsize hmax
    (((tokensOf j.fullVocab).zip (scoresOf j.fullVocab j.merges)).flatMap packToken)
  have hpos : 0 < vocabSizeOf j.fullVocab := Nat.succ_pos _
  by_cases hok : vocabSizeOf j.fullVocab ≤ 1000000 ∧ 0 < maxTokenLenOf j.fullVocab ∧ maxTokenLenOf j.fullVocab ≤ 4096
  · obtain ⟨t, hload, hvocab, hscores, htsize, htmax⟩ := tokenizerLoad_some hge h0 h4 hdrop ⟨hpos, hok⟩ hread
    rw [hload]
    refine ⟨⟨fun _ => hok, fun _ => rfl⟩, fun t' ht' => ?_⟩
    cases ht'
    have hstr : ∀ id, t.str id = untilNul ((tokensOf j.fullVocab).getD id []) := by
      intro id
      unfold Tokenizer.str
      rw [hvocab, List.map_map]
      have hfst : ((tokensOf j.fullVocab).zip (scoresOf j.fullVocab j.merges)).map
          (Prod.snd ∘ fun p => (p.2, untilNul p.1)) =
          (tokensOf j.fullVocab).map untilNul := by
        have hzip : ((tokensOf j.fullVocab).zip (scoresOf j.fullVocab j.merges)).map Prod.fst = tokensOf j.fullVocab :=
          List.map_fst_zip (by rw [length_tokensOf, length_scoresOf])
        calc ((tokensOf j.fullVocab).zip (scoresOf j.fullVocab j.merges)).map (Prod.snd ∘ fun p => (p.2, untilNul p.1))
            = (((tokensOf j.fullVocab).zip (scoresOf j.fullVocab j.merges)).map Prod.fst).map untilNul := by
              rw [List.map_map]
              rfl
          _ = (tokensOf j.fullVocab).map untilNul := by rw [hzip]
      rw [hfst, List.getD_eq_getElem?_getD, List.getElem?_map, List.getD_eq_getElem?_getD]
      cases (tokensOf j.fullVocab)[id]? <;> rfl
    have hscore : ∀ id, t.score id = (scoresOf j.fullVocab j.merges).getD id 0 := by
      intro id
      unfold Tokenizer.score
      rw [hscores, List.map_map]
      have hsnd : ((tokensOf j.fullVocab).zip (scoresOf j.fullVocab j.merges)).map
          (Prod.fst ∘ fun p => (p.2, untilNul p.1)) =
          scoresOf j.fullVocab j.merges :=
        List.map_snd_zip (by rw [length_tokensOf, length_scoresOf])
      rw [hsnd]
    have hfound : (∀ p ∈ j.fullVocab, 0 ∉ p.1) → ∀ id s, (tokensOf j.fullVocab).getD id [] = s → s ≠ [] →
        t.lookup s = some id := by
      intro hnul id s hs hne
      have hitem : ∀ id', untilNul ((tokensOf j.fullVocab).getD id' []) = s → (s, id') ∈ j.fullVocab := by
        intro id' he
        rcases tokensOf_mem j.fullVocab id' with h0 | hmem
        · rw [h0] at he
          exact absurd he.symm hne
        · have hclean : 0 ∉ (tokensOf j.fullVocab).getD id' [] := hnul _ hmem
          rw [untilNul_of_noNul hclean] at he
          rwa [he] at hmem
      have hself : untilNul ((tokensOf j.fullVocab).getD id []) = s := by
        rcases tokensOf_mem j.fullVocab id with h0 | hmem
        · exact absurd (hs.symm.trans h0) hne
        · have hclean : 0 ∉ (tokensOf j.fullVocab).getD id [] := hnul _ hmem
          rw [untilNul_of_noNul hclean, hs]
      have hid := hitem id hself
      cases hl : t.lookup s with
      | none => exact absurd ((hstr id).trans hself) (t.lookup_none hl (by rw [htsize]; exact id_lt_vocabSizeOf hid))
      | some id' =>
        obtain ⟨-, hstr'⟩ := t.lookup_some hl
        have hid' := hitem id' ((hstr id').symm.trans hstr')
        have heq := List.inj_on_of_nodup_map (TokenizerJson.fullVocab_nodup hkeys) hid' hid rfl
        exact congrArg some (congrArg Prod.snd heq)
    refine ⟨htsize, htmax, fun id => ⟨hstr id, hscore id⟩, hfound, fun hids p hp => ?_⟩
    have htoken := tokensOf_item hids hp
    exact ⟨by rw [hstr, htoken], fun hnul hne => hfound hnul p.2 p.1 htoken hne⟩
  · rw [tokenizerLoad_none hge h0 h4 fun hall => hok hall.2]
    exact ⟨⟨fun hsome => (Bool.false_ne_true hsome).elim, fun hall => (hok hall).elim⟩,
      fun t ht => (Option.some_ne_none t ht.symm).elim⟩

/-- Two letters and their merge, with an added token behind a hole. -/
def letterJson : TokenizerJson :=
  { vocab := some [([97], 0), ([98], 1), ([97, 98], 2)]
    addedTokens := some [([60, 115, 62], 4)]
    merges := [.text [97, 32, 98]] }

theorem tokenizerLoad_convert_letters :
    ∃ file t, convertHfTokenizer letterJson = some file ∧ tokenizerLoad file = some t ∧ t.vocabSize = 5 ∧
      t.str 2 = [97, 98] ∧ t.str 3 = [] ∧ t.lookup [60, 115, 62] = some 4 := by
  have hconv : ∃ file, convertHfTokenizer letterJson = some file := ⟨_, rfl⟩
  obtain ⟨file, hfile⟩ := hconv
  obtain ⟨hload, htok⟩ := tokenizerLoad_convert letterJson file hfile (by intro vocab hv; cases hv; decide) (by decide)
  obtain ⟨t, ht⟩ := Option.isSome_iff_exists.1 (hload.2 (by decide))
  obtain ⟨hsize, -, hstr, -, hitems⟩ := htok t ht
  refine ⟨file, t, hfile, ht, hsize, (hstr 2).1.trans (by decide), (hstr 3).1.trans (by decide), ?_⟩
  exact (hitems (by decide) ([60, 115, 62], 4) (by decide)).2 (by decide) (by decide)

end BitForge.Tokenizer
