/-
The memory of a conversation: texts saved by `auto_save_memory` of `rag/auto_save.c` and found again by `memory_search` of
`rag/memory_search.c`, over the embedder, the database and the search. Saves and searches in any order: what is found
depends on the texts saved before and on the query only, and no two saved texts are too similar.
-/
import BitForge.Rag.Durable
import BitForge.Rag.Embedder
import BitForge.Rag.Similarity

namespace BitForge.Rag

open BitForge.Lib BitForge.Transformer

/-- `0.95f` -/
def autoSaveDedupThreshold : Nat := 0x3F733333

/-- `0.5f` -/
def memorySearchMinScore : Nat := 0x3F000000

def memorySearchMaxK : Int := 10

/-- `a >= b` -/
def reaches (a b : Nat) : Bool := Single.gt a b || Single.eq a b

/-- The model, its tokenizer and the `tn_vec_dot` of the dispatch. -/
structure MemoryContext (F X L C R : Type) where
  ops : PoolOps X
  kernels : Kernels F X L C R
  cfg : Config
  tok : Transformer.Tokenizer
  tnVecDot : (Nat → Nat) → (Nat → Nat) → Int → Nat

/-- The run state of the embedder, and the database with its file. -/
structure Memory (F X L C R : Type) where
  es : RunState F X L C R
  world : World

/-- `vector_db_embeddings`: the rows one after the other. -/
def rows (dim : Nat) (entries : List Entry) (a : Nat) : Nat :=
  ((entries.getD (a / dim) ⟨[], []⟩).embedding.getD (a % dim) 0).toNat

/-- The bits of an embedding. -/
def bits (v : Nat → UInt32) (d : Nat) : Nat := (v d).toNat

section

variable {F X L C R : Type} [Zero F] (ctx : MemoryContext F X L C R)

/-- The similarity of an embedding to an entry. -/
def similarity (entries : List Entry) (v : Nat → UInt32) (i : Nat) : Nat :=
  ragCosineSimilarity ctx.tnVecDot (bits v) (rows ctx.cfg.dim entries) ctx.cfg.dim i

/-- The deduplication loop. -/
def isDuplicate (entries : List Entry) (v : Nat → UInt32) : Bool :=
  (List.range entries.length).any fun i => reaches (similarity ctx entries v i) autoSaveDedupThreshold

/-- `auto_save_memory`. -/
def autoSave (text : List UInt8) (io : StoreIo) (m : Memory F X L C R) : Int × Memory F X L C R :=
  if m.world.db.entries.length ≥ vrdbMaxEntries then (-1, m)
  else
    let (embedding, es) := embedderGenerate ctx.ops ctx.cfg.dim ctx.kernels ctx.cfg ctx.tok text m.es
    let duplicate := match embedding with
      | none => false
      | some v => isDuplicate ctx m.world.db.entries v
    let (code, world) := autoSaveMemory embedding duplicate text io m.world
    (code, ⟨es, world⟩)

/-- The loop that fills the results, and `vector_db_text`. -/
def fillResults (entries : List Entry) (found : Int) (indices : Nat → Int) (scores : Nat → Nat) (maxResults : Int) :
    List (List UInt8 × Nat) :=
  (((List.range found.toNat).filter fun i => !Single.gt memorySearchMinScore (scores i)).take maxResults.toNat).map fun i =>
    ((entries.getD (indices i).toNat ⟨[], []⟩).text, scores i)

def clampK (entries : List Entry) (maxResults : Int) : Int :=
  let k := if maxResults > memorySearchMaxK then memorySearchMaxK else maxResults
  if k > entries.length then entries.length else k

/-- The search of `memory_search` once it has the embedding of the query; none where the arrays cannot be allocated. -/
def searchEntries (entries : List Entry) (v : Nat → UInt32) (maxResults : Int) : Option (List (List UInt8 × Nat)) :=
  let k := clampK entries maxResults
  if k < 0 then none
  else
    match ragFindTopK ctx.tnVecDot (some (bits v)) (some (rows ctx.cfg.dim entries)) entries.length ctx.cfg.dim k
        (some fun _ => 0) (some fun _ => 0) with
    | (found, some indices, some scores) => some (fillResults entries found indices scores maxResults)
    | _ => some []

/-- `memory_search`: the results, or none where it returns -1. -/
def memorySearch (query : List UInt8) (maxResults : Int) (m : Memory F X L C R) :
    Option (List (List UInt8 × Nat)) × Memory F X L C R :=
  if m.world.db.entries.length = 0 then (some [], m)
  else
    let (embedding, es) := embedderGenerate ctx.ops ctx.cfg.dim ctx.kernels ctx.cfg ctx.tok query m.es
    (embedding.bind fun v => searchEntries ctx m.world.db.entries v maxResults, ⟨es, m.world⟩)

/-! ## Runs -/

inductive MemoryOp
  | save (text : List UInt8) (io : StoreIo)
  | search (query : List UInt8) (maxResults : Int)

/-- The code that `auto_save_memory` returns, or what `memory_search` finds. -/
inductive MemoryReply
  | saved (code : Int)
  | found (results : Option (List (List UInt8 × Nat)))
deriving DecidableEq, Repr

/-- The replies of a run, and the memory after it. -/
def memoryRun : List MemoryOp → Memory F X L C R → List MemoryReply × Memory F X L C R
  | [], m => ([], m)
  | .save text io :: ops, m =>
    let (code, m) := autoSave ctx text io m
    let (rest, m) := memoryRun ops m
    (.saved code :: rest, m)
  | .search query maxResults :: ops, m =>
    let (results, m) := memorySearch ctx query maxResults m
    let (rest, m) := memoryRun ops m
    (.found results :: rest, m)

/-! ## The memory as a list of entries -/

variable (start : Nat → C × R)

/-- A text is remembered unless the memory is full, the text has no embedding, or some entry is too similar. -/
def remember (entries : List Entry) (text : List UInt8) : List Entry :=
  if entries.length ≥ vrdbMaxEntries then entries
  else
    match embedText ctx.ops ctx.cfg.dim ctx.kernels ctx.cfg start ctx.tok text with
    | none => entries
    | some v => if isDuplicate ctx entries v then entries else entries ++ [newEntry ctx.cfg.dim v text]

/-- The code for a save: an error where the memory is full, the text has no embedding, or a write to the file fails, though
the entry is then in the memory. -/
def saveCode (entries : List Entry) (text : List UInt8) (io : StoreIo) : Int :=
  if entries.length ≥ vrdbMaxEntries then -1
  else
    match embedText ctx.ops ctx.cfg.dim ctx.kernels ctx.cfg start ctx.tok text with
    | none => -1
    | some v => if isDuplicate ctx entries v then 1 else if io.AllOk then 0 else -1

def recalled (entries : List Entry) (query : List UInt8) (maxResults : Int) : Option (List (List UInt8 × Nat)) :=
  if entries.length = 0 then some []
  else
    (embedText ctx.ops ctx.cfg.dim ctx.kernels ctx.cfg start ctx.tok query).bind fun v =>
      searchEntries ctx entries v maxResults

def memorySpec : List MemoryOp → List Entry → List MemoryReply × List Entry
  | [], entries => ([], entries)
  | .save text io :: ops, entries =>
    let (rest, entries') := memorySpec ops (remember ctx start entries text)
    (.saved (saveCode ctx start entries text io) :: rest, entries')
  | .search query maxResults :: ops, entries =>
    let (rest, entries') := memorySpec ops entries
    (.found (recalled ctx start entries query maxResults) :: rest, entries')

end

/-! ## A run of the code is one of the list -/

section

variable {F X L C R : Type} [Zero F] {ctx : MemoryContext F X L C R}

/-- The embedder is allocated and the database is open for embeddings of the model. -/
structure MemoryReady (ctx : MemoryContext F X L C R) (m : Memory F X L C R) : Prop where
  maxSeqLen : m.es.maxSeqLen = embedderMaxSeq
  opened : m.world.db.fp.isSome
  embedDim : m.world.db.embedDim = ctx.cfg.dim
  capacity : CapacityOk m.world.db.entries.length m.world.db.capacity

/-- The entry of a store is in memory, whatever becomes of the writes. -/
theorem vectorDbStore_ready {w : World} (hfp : w.db.fp.isSome) (hcap : CapacityOk w.db.entries.length w.db.capacity)
    (hlt : w.db.entries.length < vrdbMaxEntries) (v : Nat → UInt32) (text : List UInt8) (io : StoreIo) :
    (vectorDbStore v text io w).2.db.entries = w.db.entries ++ [newEntry w.db.embedDim v text] ∧
      (vectorDbStore v text io w).2.db.fp.isSome ∧ (vectorDbStore v text io w).2.db.embedDim = w.db.embedDim ∧
      CapacityOk (vectorDbStore v text io w).2.db.entries.length (vectorDbStore v text io w).2.db.capacity ∧
      ((vectorDbStore v text io w).1 = .ok ↔ io.AllOk) := by
  obtain ⟨pos, hpos⟩ := Option.isSome_iff_exists.1 hfp
  obtain ⟨capacity, hcap', hstore⟩ := vectorDbStore_writes hpos hcap hlt v text io
  rcases happend : appendRecord ⟨w.disk.getD [], pos⟩ (newEntry w.db.embedDim v text) (w.db.entries.length + 1) w.db.embedDim io
    with ⟨f, r⟩
  have hcode := appendRecord_ok_iff ⟨w.disk.getD [], pos⟩ (newEntry w.db.embedDim v text) (w.db.entries.length + 1) w.db.embedDim io
  rw [happend] at hcode
  rw [hstore _ rfl f r happend]
  refine ⟨rfl, rfl, rfl, ?_, hcode⟩
  rw [List.length_append]
  exact hcap'

theorem autoSave_spec (start : Nat → C × R) (htok : EncodesWithin ctx.cfg ctx.tok embedderMaxSeq) {m : Memory F X L C R} (h : MemoryReady ctx m)
    (text : List UInt8) (io : StoreIo) :
    MemoryReady ctx (autoSave ctx text io m).2 ∧
      (autoSave ctx text io m).2.world.db.entries = remember ctx start m.world.db.entries text ∧
      (autoSave ctx text io m).1 = saveCode ctx start m.world.db.entries text io := by
  have hembed := embedderGenerate_fst ctx.ops ctx.cfg.dim ctx.kernels htok start text h.maxSeqLen
  have hmax := (embedderGenerate_maxSeqLen ctx.ops ctx.cfg.dim ctx.kernels ctx.cfg ctx.tok text m.es).trans h.maxSeqLen
  unfold autoSave remember saveCode
  by_cases hfull : m.world.db.entries.length ≥ vrdbMaxEntries
  · rw [if_pos hfull, if_pos hfull, if_pos hfull]
    exact ⟨h, rfl, rfl⟩
  · rw [if_neg hfull, if_neg hfull, if_neg hfull, ← hembed]
    dsimp only
    generalize embedderGenerate ctx.ops ctx.cfg.dim ctx.kernels ctx.cfg ctx.tok text m.es = r at hmax ⊢
    obtain ⟨embedding, es⟩ := r
    unfold autoSaveMemory
    rw [if_neg hfull]
    cases embedding with
    | none => exact ⟨⟨hmax, h.opened, h.embedDim, h.capacity⟩, rfl, rfl⟩
    | some v =>
      dsimp only
      by_cases hdup : isDuplicate ctx m.world.db.entries v = true
      · rw [if_pos hdup, if_pos hdup, if_pos hdup]
        exact ⟨⟨hmax, h.opened, h.embedDim, h.capacity⟩, rfl, rfl⟩
      · rw [if_neg hdup, if_neg hdup, if_neg hdup]
        obtain ⟨hentries, hopened, hdim, hcapacity, hcode⟩ :=
          vectorDbStore_ready h.opened h.capacity (Nat.lt_of_not_le hfull) v text io
        refine ⟨⟨hmax, hopened, hdim.trans h.embedDim, hcapacity⟩, ?_, if_congr hcode rfl rfl⟩
        rw [← h.embedDim]
        exact hentries

theorem memorySearch_spec (start : Nat → C × R) (htok : EncodesWithin ctx.cfg ctx.tok embedderMaxSeq) {m : Memory F X L C R} (h : MemoryReady ctx m)
    (query : List UInt8) (maxResults : Int) :
    (memorySearch ctx query maxResults m).1 = recalled ctx start m.world.db.entries query maxResults ∧
      MemoryReady ctx (memorySearch ctx query maxResults m).2 ∧
      (memorySearch ctx query maxResults m).2.world = m.world := by
  have hembed := embedderGenerate_fst ctx.ops ctx.cfg.dim ctx.kernels htok start query h.maxSeqLen
  have hmax := (embedderGenerate_maxSeqLen ctx.ops ctx.cfg.dim ctx.kernels ctx.cfg ctx.tok query m.es).trans h.maxSeqLen
  unfold memorySearch recalled
  by_cases hempty : m.world.db.entries.length = 0
  · rw [if_pos hempty, if_pos hempty]
    exact ⟨rfl, h, rfl⟩
  · rw [if_neg hempty, if_neg hempty, ← hembed]
    exact ⟨rfl, ⟨hmax, h.opened, h.embedDim, h.capacity⟩, rfl⟩

/-- Over any run of saves and searches the memory is the list of the texts remembered: every reply is the one for the list as it
is then, whatever the embedder was used for and whichever writes to the file fail. -/
theorem memoryRun_refines (ctx : MemoryContext F X L C R) (start : Nat → C × R)
    (htok : EncodesWithin ctx.cfg ctx.tok embedderMaxSeq) : ∀ (ops : List MemoryOp) (m : Memory F X L C R),
    MemoryReady ctx m →
    (memoryRun ctx ops m).1 = (memorySpec ctx start ops m.world.db.entries).1 ∧
      (memoryRun ctx ops m).2.world.db.entries = (memorySpec ctx start ops m.world.db.entries).2 ∧
      MemoryReady ctx (memoryRun ctx ops m).2
  | [], m, h => ⟨rfl, rfl, h⟩
  | .save text io :: ops, m, h => by
    obtain ⟨hready, hentries, hcode⟩ := autoSave_spec start htok h text io
    obtain ⟨hreplies, hentries', hready'⟩ := memoryRun_refines ctx start htok ops _ hready
    rw [hentries] at hreplies hentries'
    unfold memoryRun memorySpec
    dsimp only
    rw [hcode, hreplies, hentries']
    exact ⟨rfl, rfl, hready'⟩
  | .search query maxResults :: ops, m, h => by
    obtain ⟨hresults, hready, hworld⟩ := memorySearch_spec start htok h query maxResults
    obtain ⟨hreplies, hentries, hready'⟩ := memoryRun_refines ctx start htok ops _ hready
    rw [hworld] at hreplies hentries
    unfold memoryRun memorySpec
    dsimp only
    rw [hresults, hreplies, hentries]
    exact ⟨rfl, rfl, hready'⟩

end

/-! ## No two entries are too similar -/

section

variable {F X L C R : Type} (ctx : MemoryContext F X L C R)

/-- `tn_vec_dot` reads the first `dim` components of its arguments. -/
def DotReads (tnVecDot : (Nat → Nat) → (Nat → Nat) → Int → Nat) : Prop :=
  ∀ (a a' b b' : Nat → Nat) (dim : Nat), (∀ d < dim, a d = a' d) → (∀ d < dim, b d = b' d) →
    tnVecDot a b dim = tnVecDot a' b' dim

/-- The embedding of an entry. -/
def entryVector (e : Entry) (d : Nat) : UInt32 := e.embedding.getD d 0

/-- The similarity of two entries, the later one first, as at the time it was saved. -/
def entrySimilarity (e e' : Entry) : Nat := ctx.tnVecDot (bits (entryVector e)) (bits (entryVector e')) ctx.cfg.dim

theorem rows_entry {dim : Nat} {entries : List Entry} {i d : Nat} (hi : i < entries.length) (hd : d < dim) :
    rows dim entries (i * dim + d) = bits (entryVector entries[i]) d := by
  have hdiv : (i * dim + d) / dim = i := by
    rw [Nat.mul_comm, Nat.mul_add_div (by omega), Nat.div_eq_of_lt hd, Nat.add_zero]
  have hmod : (i * dim + d) % dim = d := by
    rw [Nat.mul_comm, Nat.mul_add_mod, Nat.mod_eq_of_lt hd]
  unfold rows bits entryVector
  rw [hdiv, hmod, ← List.getElem_eq_getD (h := hi)]

variable {ctx}

theorem similarity_entry (hdot : DotReads ctx.tnVecDot) {entries : List Entry} {i : Nat} (hi : i < entries.length)
    (v : Nat → UInt32) (text : List UInt8) :
    similarity ctx entries v i = entrySimilarity ctx (newEntry ctx.cfg.dim v text) entries[i] := by
  unfold similarity ragCosineSimilarity entrySimilarity
  rw [Int.toNat_natCast]
  apply hdot
  · intro d hd
    unfold bits entryVector newEntry
    rw [List.getD_eq_getElem?_getD, List.getElem?_map, List.getElem?_range hd]
    rfl
  · exact fun d hd => rows_entry hi hd

theorem isDuplicate_iff (hdot : DotReads ctx.tnVecDot) (entries : List Entry) (v : Nat → UInt32) (text : List UInt8) :
    isDuplicate ctx entries v = true ↔
      ∃ e ∈ entries, reaches (entrySimilarity ctx (newEntry ctx.cfg.dim v text) e) autoSaveDedupThreshold = true := by
  unfold isDuplicate
  rw [List.any_eq_true]
  constructor
  · rintro ⟨i, hi, hreach⟩
    have hlt := List.mem_range.1 hi
    rw [similarity_entry hdot hlt v text] at hreach
    exact ⟨entries[i], List.getElem_mem hlt, hreach⟩
  · rintro ⟨e, he, hreach⟩
    obtain ⟨i, hlt, rfl⟩ := List.getElem_of_mem he
    refine ⟨i, List.mem_range.2 hlt, ?_⟩
    rw [similarity_entry hdot hlt v text]
    exact hreach

/-- A memory without entries that are too similar, in which every text of `saved` is found again: as an entry of its own,
or through one that is too similar to it. -/
structure Remembered (ctx : MemoryContext F X L C R) (start : Nat → C × R) (saved : List (List UInt8)) (entries : List Entry) :
    Prop where
  apart : entries.Pairwise fun e e' => reaches (entrySimilarity ctx e' e) autoSaveDedupThreshold = false
  covers : ∀ text ∈ saved, ∀ v, embedText ctx.ops ctx.cfg.dim ctx.kernels ctx.cfg start ctx.tok text = some v →
    newEntry ctx.cfg.dim v text ∈ entries ∨
      ∃ e ∈ entries, reaches (entrySimilarity ctx (newEntry ctx.cfg.dim v text) e) autoSaveDedupThreshold = true

variable {start : Nat → C × R}

theorem Remembered.grow {saved : List (List UInt8)} {entries : List Entry} (h : Remembered ctx start saved entries) {e : Entry}
    (happ : ∀ e' ∈ entries, reaches (entrySimilarity ctx e e') autoSaveDedupThreshold = false) :
    Remembered ctx start saved (entries ++ [e]) where
  apart := by
    rw [List.pairwise_append]
    refine ⟨h.apart, List.pairwise_singleton _ _, ?_⟩
    intro e' he' e'' he''
    rw [List.mem_singleton.1 he'']
    exact happ e' he'
  covers := by
    intro text htext v hv
    rcases h.covers text htext v hv with hin | ⟨e', he', hreach⟩
    · exact .inl (List.mem_append_left _ hin)
    · exact .inr ⟨e', List.mem_append_left _ he', hreach⟩

/-- One more saved text that is covered. -/
theorem Remembered.covered {saved : List (List UInt8)} {entries : List Entry} (h : Remembered ctx start saved entries)
    {text : List UInt8} (hcov : ∀ v, embedText ctx.ops ctx.cfg.dim ctx.kernels ctx.cfg start ctx.tok text = some v →
      newEntry ctx.cfg.dim v text ∈ entries ∨
        ∃ e ∈ entries, reaches (entrySimilarity ctx (newEntry ctx.cfg.dim v text) e) autoSaveDedupThreshold = true) :
    Remembered ctx start (saved ++ [text]) entries where
  apart := h.apart
  covers := by
    intro text' htext' v hv
    rcases List.mem_append.1 htext' with htext' | htext'
    · exact h.covers text' htext' v hv
    · cases List.mem_singleton.1 htext'
      exact hcov v hv

/-- The texts that are saved while the memory has room. -/
def keptTexts (ctx : MemoryContext F X L C R) (start : Nat → C × R) : List MemoryOp → List Entry → List (List UInt8)
  | [], _ => []
  | .save text _ :: ops, entries =>
    (if entries.length ≥ vrdbMaxEntries then [] else [text]) ++ keptTexts ctx start ops (remember ctx start entries text)
  | .search _ _ :: ops, entries => keptTexts ctx start ops entries

theorem Remembered.remember (hdot : DotReads ctx.tnVecDot) {saved : List (List UInt8)} {entries : List Entry}
    (h : Remembered ctx start saved entries) (text : List UInt8) :
    Remembered ctx start (saved ++ if entries.length ≥ vrdbMaxEntries then [] else [text]) (Rag.remember ctx start entries text) := by
  unfold Rag.remember
  by_cases hfull : entries.length ≥ vrdbMaxEntries
  · rw [if_pos hfull, if_pos hfull, List.append_nil]
    exact h
  · rw [if_neg hfull, if_neg hfull]
    cases hv : embedText ctx.ops ctx.cfg.dim ctx.kernels ctx.cfg start ctx.tok text with
    | none =>
      apply h.covered
      intro v hv'
      cases hv.symm.trans hv'
    | some v =>
      dsimp only
      have hiff := isDuplicate_iff hdot entries v text
      by_cases hdup : isDuplicate ctx entries v = true
      · rw [if_pos hdup]
        apply h.covered
        intro v' hv'
        obtain rfl := Option.some.inj (hv.symm.trans hv')
        exact .inr (hiff.1 hdup)
      · rw [if_neg hdup]
        have hgrow : Remembered ctx start saved (entries ++ [newEntry ctx.cfg.dim v text]) := by
          apply h.grow
          intro e he
          by_contra hreach
          exact hdup (hiff.2 ⟨e, he, Bool.not_eq_false _ ▸ hreach⟩)
        apply hgrow.covered
        intro v' hv'
        obtain rfl := Option.some.inj (hv.symm.trans hv')
        exact .inl (List.mem_append_right _ (List.mem_singleton.2 rfl))

theorem memorySpec_remembered (hdot : DotReads ctx.tnVecDot) : ∀ (ops : List MemoryOp) {saved : List (List UInt8)}
    {entries : List Entry}, Remembered ctx start saved entries →
    Remembered ctx start (saved ++ keptTexts ctx start ops entries) (memorySpec ctx start ops entries).2
  | [], saved, _, h => by
    unfold keptTexts
    rw [List.append_nil]
    exact h
  | .save text io :: ops, saved, entries, h => by
    have hrest := memorySpec_remembered hdot ops (h.remember hdot text)
    rw [List.append_assoc] at hrest
    exact hrest
  | .search query maxResults :: ops, saved, entries, h => memorySpec_remembered hdot ops h

end

/-! ## What a search finds -/

theorem reaches_iff_rank {a b : Nat} (ha : (Single.place a).isSome) (hb : (Single.place b).isSome) :
    reaches a b = true ↔ Single.rank b ≤ Single.rank a := by
  unfold reaches
  rw [Bool.or_eq_true, Single.gt_iff_rank ha hb, Single.eq_iff_rank ha hb]
  omega

/-- The results of a search for at most `k` entries: entries with their own scores, all high enough, the best first, and
an entry that scores high enough is left out only behind `k` others that score no less. -/
structure IsFound (entries : List Entry) (score : Nat → Nat) (k : Nat) (results : List (List UInt8 × Nat)) : Prop where
  count : results.length ≤ k
  sound : ∀ r ∈ results, ∃ (i : Nat) (hi : i < entries.length),
    r = (entries[i].text, score i) ∧ reaches (score i) memorySearchMinScore = true
  ordered : results.Pairwise fun r r' => reaches r.2 r'.2 = true
  complete : ∀ (i : Nat) (hi : i < entries.length), reaches (score i) memorySearchMinScore = true →
    (entries[i].text, score i) ∈ results ∨ (results.length = k ∧ ∀ r ∈ results, reaches r.2 (score i) = true)

theorem minScore_isSome : (Single.place memorySearchMinScore).isSome := by decide

theorem not_gt_minScore {a : Nat} (ha : (Single.place a).isSome) :
    (!Single.gt memorySearchMinScore a) = true ↔ reaches a memorySearchMinScore = true := by
  rw [reaches_iff_rank ha minScore_isSome, Bool.not_eq_true', ← Bool.not_eq_true, Single.gt_iff_rank minScore_isSome ha]
  omega

/-- What the loop makes of the arrays of `rag_find_top_k`. -/
theorem fillResults_isFound {entries : List Entry} {score : Nat → Nat} {m : Nat} {indices : Nat → Int} {scores : Nat → Nat}
    {maxResults : Int} (hmax : m ≤ maxResults) (hplaced : ∀ i < entries.length, (Single.place (score i)).isSome)
    (h : IsRetrieved score entries.length m indices scores) :
    IsFound entries score m (fillResults entries m indices scores maxResults) := by
  have hslot : ∀ j < m, ∃ i, ∃ hi : i < entries.length, indices j = (i : Nat) ∧ scores j = score i ∧
      ((entries.getD (indices j).toNat ⟨[], []⟩).text, scores j) = (entries[i].text, score i) := by
    intro j hj
    obtain ⟨h0, h1⟩ := h.inRange j (by omega)
    have hscore := h.ofIndex j (by omega)
    obtain ⟨i, hieq⟩ := Int.eq_ofNat_of_zero_le h0
    have hi : i < entries.length := by omega
    rw [hieq, Int.toNat_natCast] at hscore
    refine ⟨i, hi, hieq, hscore, ?_⟩
    rw [hieq, Int.toNat_natCast, ← List.getElem_eq_getD (h := hi), hscore]
  have hscores : ∀ j < m, (Single.place (scores j)).isSome := by
    intro j hj
    obtain ⟨i, hi, -, hs, -⟩ := hslot j hj
    rw [hs]
    exact hplaced i hi
  have hresults : fillResults entries m indices scores maxResults =
      ((List.range m).filter fun j => !Single.gt memorySearchMinScore (scores j)).map fun j =>
        ((entries.getD (indices j).toNat ⟨[], []⟩).text, scores j) := by
    unfold fillResults
    rw [Int.toNat_natCast, List.take_of_length_le]
    have hle := List.length_filter_le (fun j => !Single.gt memorySearchMinScore (scores j)) (List.range m)
    rw [List.length_range] at hle
    omega
  have hmem : ∀ r ∈ fillResults entries m indices scores maxResults, ∃ j < m,
      (!Single.gt memorySearchMinScore (scores j)) = true ∧
        r = ((entries.getD (indices j).toNat ⟨[], []⟩).text, scores j) := by
    intro r hr
    rw [hresults] at hr
    obtain ⟨j, hj, rfl⟩ := List.mem_map.1 hr
    obtain ⟨hlt, hpass⟩ := List.mem_filter.1 hj
    exact ⟨j, List.mem_range.1 hlt, hpass, rfl⟩
  constructor
  · rw [hresults, List.length_map]
    exact (List.length_filter_le _ _).trans (by rw [List.length_range])
  · intro r hr
    obtain ⟨j, hj, hpass, rfl⟩ := hmem r hr
    obtain ⟨i, hi, -, hs, hpair⟩ := hslot j hj
    refine ⟨i, hi, hpair, ?_⟩
    rw [hs] at hpass
    exact (not_gt_minScore (hplaced i hi)).1 hpass
  · rw [hresults, List.pairwise_map]
    refine (List.Pairwise.filter _ List.pairwise_lt_range).imp_of_mem ?_
    intro j j' hj hj' hlt
    have hjm := List.mem_range.1 (List.mem_filter.1 hj).1
    have hjm' := List.mem_range.1 (List.mem_filter.1 hj').1
    unfold reaches
    rw [Bool.or_eq_true]
    exact (h.ordered j j' hlt (by omega)).imp_right And.left
  · intro i hi hreach
    by_cases hin : ∃ j < m, indices j = (i : Int)
    · left
      obtain ⟨j, hj, hidx⟩ := hin
      obtain ⟨i', hi', hidx', hs, hpair⟩ := hslot j hj
      obtain rfl : i' = i := by omega
      rw [hresults]
      refine List.mem_map.2 ⟨j, List.mem_filter.2 ⟨List.mem_range.2 hj, ?_⟩, hpair⟩
      rw [hs]
      exact (not_gt_minScore (hplaced i' hi)).2 hreach
    · right
      have hbehind : ∀ j < m, reaches (scores j) (score i) = true := by
        intro j hj
        have hout := h.leftOut i (by omega) (by omega) (fun j hj hidx => hin ⟨j, by omega, hidx⟩) j (by omega)
        rw [Int.toNat_natCast] at hout
        unfold reaches
        rw [Bool.or_eq_true]
        exact hout.imp_right And.left
      have hpass : ∀ j ∈ List.range m, (!Single.gt memorySearchMinScore (scores j)) = true := by
        intro j hj
        have hjm := List.mem_range.1 hj
        rw [not_gt_minScore (hscores j hjm), reaches_iff_rank (hscores j hjm) minScore_isSome]
        have h1 := (reaches_iff_rank (hscores j hjm) (hplaced i hi)).1 (hbehind j hjm)
        have h2 := (reaches_iff_rank (hplaced i hi) minScore_isSome).1 hreach
        omega
      refine ⟨?_, ?_⟩
      · rw [hresults, List.length_map, List.filter_eq_self.2 hpass, List.length_range]
      · intro r hr
        obtain ⟨j, hj, -, rfl⟩ := hmem r hr
        exact hbehind j hj

section

variable {F X L C R : Type}

theorem recalled_isFound (ctx : MemoryContext F X L C R) (start : Nat → C × R) (entries : List Entry)
    (query : List UInt8) (maxResults : Int) (v : Nat → UInt32) (hdim : 1 ≤ ctx.cfg.dim) (hmax : 1 ≤ maxResults)
    (hv : embedText ctx.ops ctx.cfg.dim ctx.kernels ctx.cfg start ctx.tok query = some v)
    (hscores : ∀ i < entries.length, Single.gt (similarity ctx entries v i) minusTwo = true) :
    ∃ results, recalled ctx start entries query maxResults = some results ∧
      IsFound entries (similarity ctx entries v) (min (min maxResults memorySearchMaxK).toNat entries.length) results := by
  unfold recalled
  by_cases hempty : entries.length = 0
  · rw [if_pos hempty]
    refine ⟨[], rfl, Nat.zero_le _, fun r hr => absurd hr List.not_mem_nil, List.Pairwise.nil, fun i hi => by omega⟩
  · rw [if_neg hempty, hv]
    have hk : clampK entries maxResults = (min (min maxResults memorySearchMaxK).toNat entries.length : Nat) := by
      unfold clampK memorySearchMaxK
      dsimp only
      split_ifs <;> omega
    have hpos : 1 ≤ min (min maxResults memorySearchMaxK).toNat entries.length := by
      unfold memorySearchMaxK
      omega
    have hle : ((min (min maxResults memorySearchMaxK).toNat entries.length : Nat) : Int) ≤ maxResults := by omega
    have hmin : min ((min (min maxResults memorySearchMaxK).toNat entries.length : Nat) : Int) (entries.length : Int) =
        (min (min maxResults memorySearchMaxK).toNat entries.length : Nat) := by omega
    generalize min (min maxResults memorySearchMaxK).toNat entries.length = k at hk hpos hle hmin ⊢
    obtain ⟨indices, scores, hfind, hret⟩ := @ragFindTopK_isRetrieved ctx.tnVecDot (bits v) (rows ctx.cfg.dim entries)
      entries.length ctx.cfg.dim k (fun _ => 0) (fun _ => 0) (by omega) (by omega) (by omega) fun i hi => hscores i (by omega)
    rw [hmin] at hfind hret
    refine ⟨fillResults entries k indices scores maxResults, ?_, ?_⟩
    · change searchEntries ctx entries v maxResults = _
      unfold searchEntries
      dsimp only
      rw [hk, if_neg (by omega), hfind]
    · exact fillResults_isFound hle (fun i hi => (Single.gt_isSome (hscores i hi)).1) hret

variable [Zero F]

/-- Over any run of saves and searches the memory is the list of the texts remembered: every reply is the one for the list as it
is then, whatever the embedder was used for and whichever writes to the file fail. From an empty memory on no two entries are
too similar, and every text saved while there is room is found again in an entry. -/
theorem memoryRun_remembers (ctx : MemoryContext F X L C R) (start : Nat → C × R)
    (htok : EncodesWithin ctx.cfg ctx.tok embedderMaxSeq) (hdot : DotReads ctx.tnVecDot) (ops : List MemoryOp)
    (m : Memory F X L C R) (hready : MemoryReady ctx m) :
    (memoryRun ctx ops m).1 = (memorySpec ctx start ops m.world.db.entries).1 ∧
      (memoryRun ctx ops m).2.world.db.entries = (memorySpec ctx start ops m.world.db.entries).2 ∧
      (m.world.db.entries = [] →
        Remembered ctx start (keptTexts ctx start ops []) (memoryRun ctx ops m).2.world.db.entries) := by
  obtain ⟨hreplies, hentries, -⟩ := memoryRun_refines ctx start htok ops m hready
  refine ⟨hreplies, hentries, fun hempty => ?_⟩
  have hnone : Remembered ctx start [] [] := ⟨List.Pairwise.nil, fun text htext => absurd htext List.not_mem_nil⟩
  have hrun := memorySpec_remembered hdot ops hnone
  rw [hentries, hempty]
  exact hrun

/-- After any run a search finds the best entries: all that score high enough, or `k` of them with no better one left out. -/
theorem memorySearch_isFound (ctx : MemoryContext F X L C R) (start : Nat → C × R)
    (htok : EncodesWithin ctx.cfg ctx.tok embedderMaxSeq) (ops : List MemoryOp) (m m' : Memory F X L C R)
    (hready : MemoryReady ctx m) (hm' : m' = (memoryRun ctx ops m).2) (query : List UInt8) (maxResults : Int)
    (v : Nat → UInt32) (hdim : 1 ≤ ctx.cfg.dim) (hmax : 1 ≤ maxResults)
    (hv : embedText ctx.ops ctx.cfg.dim ctx.kernels ctx.cfg start ctx.tok query = some v)
    (hscores : ∀ i < m'.world.db.entries.length, Single.gt (similarity ctx m'.world.db.entries v i) minusTwo = true) :
    ∃ results, (memorySearch ctx query maxResults m').1 = some results ∧
      IsFound m'.world.db.entries (similarity ctx m'.world.db.entries v)
        (min (min maxResults memorySearchMaxK).toNat m'.world.db.entries.length) results := by
  have hready' : MemoryReady ctx m' := by
    rw [hm']
    exact (memoryRun_refines ctx start htok ops m hready).2.2
  rw [(memorySearch_spec start htok hready' query maxResults).1]
  exact recalled_isFound ctx start m'.world.db.entries query maxResults v hdim hmax hv hscores

end

/-- A memory over bits in place of floats; the similarity is that of the first components. -/
def bitContext : MemoryContext Int Int Int Int Int :=
  { ops := bitOps
    kernels := sumKernels
    cfg := ⟨1, 2, 1, 1, 3, 8, -1, -1⟩
    tok := remainderTokenizer
    tnVecDot := fun a b dim => if 0 < dim ∧ a 0 = b 0 then 0x3f800000 else 0x3f000000 }

/-- An embedder that has been used, and an empty database open on its file. -/
def bitMemory : Memory Int Int Int Int Int :=
  ⟨{ usedState with maxSeqLen := 512 }, ⟨some [], { VectorDB.ofDim 1 with fp := some 0 }⟩⟩

theorem bitMemory_ready : MemoryReady bitContext bitMemory := ⟨rfl, rfl, rfl, ⟨le_rfl, .inl rfl⟩⟩

theorem bitContext_dotReads : DotReads bitContext.tnVecDot := by
  intro a a' b b' dim ha hb
  unfold bitContext
  dsimp only
  by_cases hdim : 0 < (dim : Int)
  · rw [ha 0 (by omega), hb 0 (by omega)]
  · rw [if_neg fun h => hdim h.1, if_neg fun h => hdim h.1]

/-- The write of the text fails; the entry is in memory nevertheless. -/
def textFails : StoreIo := ⟨.ok, .ok, .ok, .fail 0, .ok⟩

theorem memoryRun_remembers_two :
    let ops := [.save [121] textFails, .search [121] 3, .save [120] textFails]
    (memoryRun bitContext ops bitMemory).1 = (memorySpec bitContext (fun _ => (0, 0)) ops []).1 ∧
      Remembered bitContext (fun _ => (0, 0)) [[121], [120]] (memoryRun bitContext ops bitMemory).2.world.db.entries := by
  intro ops
  obtain ⟨hreplies, -, hremembered⟩ :=
    memoryRun_remembers bitContext (fun _ => (0, 0)) remainderTokenizer_encodes bitContext_dotReads ops bitMemory bitMemory_ready
  exact ⟨hreplies, hremembered rfl⟩

/-- The memory after one save. -/
def bitMemoryOne : Memory Int Int Int Int Int := (memoryRun bitContext [.save [121] textFails] bitMemory).2

/-- The embedding of a query of one letter. -/
def letterEmbedding : Nat → UInt32 :=
  (embedText bitOps 1 sumKernels bitContext.cfg (fun _ => (0, 0)) remainderTokenizer [120]).getD fun _ => 0

theorem memorySearch_isFound_one :
    ∃ results, (memorySearch bitContext [120] 3 bitMemoryOne).1 = some results ∧
      IsFound bitMemoryOne.world.db.entries (similarity bitContext bitMemoryOne.world.db.entries letterEmbedding)
        (min (min 3 memorySearchMaxK).toNat bitMemoryOne.world.db.entries.length) results :=
  memorySearch_isFound bitContext (fun _ => (0, 0)) remainderTokenizer_encodes [.save [121] textFails] bitMemory bitMemoryOne
    bitMemory_ready rfl [120] 3 letterEmbedding (by decide) (by decide) rfl (by
      intro i _
      unfold similarity ragCosineSimilarity bitContext
      dsimp only
      split_ifs <;> decide)

end BitForge.Rag
