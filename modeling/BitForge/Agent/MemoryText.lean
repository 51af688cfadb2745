/-
The texts of memories that go into the KV cache: `auto_retrieve_and_inject` of `rag/auto_retrieve.c` and
`handle_search_memory` of `agent/agent_loop.c`, as the `snprintf` calls that they make into their buffers. What
`memory_search` found is given; allocation succeeds.
-/
import BitForge.Lib.Single
import BitForge.Lib.Snprintf
import BitForge.Agent.Loop

namespace BitForge.Agent

open BitForge.Lib

/-- A result of the search with the bits of its score. -/
structure Found where
  score : Nat
  text : Option (List UInt8)
deriving DecidableEq, Repr

def injectBufSize : Int := 8192

def autoRetrieveMinFreeTokens : Int := 512

/-- `0.60f` -/
def autoRetrieveMinScore : Nat := 0x3F19999A

/-- The lines of the results that pass the stricter score. -/
def keptLines (n : Int) (results : List Found) : List (List UInt8) :=
  ((results.take n.toNat).filter fun r => Single.gt r.score autoRetrieveMinScore || Single.eq r.score autoRetrieveMinScore).map
    fun r => ascii "- " ++ r.text.getD [] ++ ascii "\n"

def retrieveHeader : List UInt8 := ascii "\n<memory>\nRelevant context from previous conversations:\n"

/-- `auto_retrieve_and_inject`; `none` where it returns before it formats. -/
def autoRetrieveAndInject (seqLen currentPos numEntries n : Int) (results : List Found) : Option (List SnprintfCall) :=
  if seqLen - currentPos < autoRetrieveMinFreeTokens then none
  else if numEntries = 0 then none
  else if n ≤ 0 then none
  else if keptLines n results = [] then none
  else some (printAll injectBufSize 128 retrieveHeader (keptLines n results) (ascii "</memory>\n"))

/-- `sizeof(buf)` -/
def searchBufSize : Int := 4096

def searchHeader (query : List UInt8) : List UInt8 := ascii "<result>\nMemory search results for \"" ++ query ++ ascii "\":\n"

def searchLines (n : Int) (results : List MemoryResult) : List (List UInt8) :=
  (results.take n.toNat).map fun r => ascii "  [" ++ r.score ++ ascii "] " ++ r.text.getD [] ++ ascii "\n"

/-- The calls of `handle_search_memory`; `none` where nothing is found and a fixed text is injected. -/
def handleSearchMemoryCalls (query : List UInt8) (n : Int) (results : List MemoryResult) : Option (List SnprintfCall) :=
  if n ≤ 0 then none
  else some (printAll searchBufSize 128 (searchHeader query) (searchLines n results) (ascii "</result>"))

/-- The texts of the memories and of the query add up to what the buffers hold: a line that starts with 128 bytes left
ends in the buffer, and so does the header with the query. -/
structure MemoriesFit (seqLen currentPos numEntries n m : Int) (found : List Found) (query : List UInt8)
    (results : List MemoryResult) : Prop where
  retrieved : autoRetrieveMinFreeTokens ≤ seqLen - currentPos → numEntries ≠ 0 → 0 < n →
    LinesFit injectBufSize 128 retrieveHeader.length (keptLines n found)
  searched : 0 < m → LinesFit searchBufSize 128 (searchHeader query).length (searchLines m results)

theorem autoRetrieve_inside_iff (seqLen currentPos numEntries n : Int) (results : List Found) :
    (∀ calls, autoRetrieveAndInject seqLen currentPos numEntries n results = some calls → StaysInside injectBufSize calls) ↔
      (autoRetrieveMinFreeTokens ≤ seqLen - currentPos → numEntries ≠ 0 → 0 < n →
        LinesFit injectBufSize 128 retrieveHeader.length (keptLines n results)) := by
  unfold autoRetrieveAndInject
  by_cases hfree : seqLen - currentPos < autoRetrieveMinFreeTokens
  · rw [if_pos hfree]
    exact iff_of_true nofun fun h => by omega
  by_cases hentries : numEntries = 0
  · rw [if_neg hfree, if_pos hentries]
    exact iff_of_true nofun fun _ h => absurd hentries h
  by_cases hn : n ≤ 0
  · rw [if_neg hfree, if_neg hentries, if_pos hn]
    exact iff_of_true nofun fun _ _ h => by omega
  rw [if_neg hfree, if_neg hentries, if_neg hn]
  by_cases hkept : keptLines n results = []
  · rw [if_pos hkept, hkept]
    exact iff_of_true nofun fun _ _ _ => by decide
  · rw [if_neg hkept]
    have hiff := @printAll_inside_iff injectBufSize 128 (by decide) (by decide) (by decide) retrieveHeader
      (ascii "</memory>\n") (keptLines n results)
    constructor
    · exact fun h _ _ _ => hiff.1 (h _ rfl)
    · rintro h calls hcalls
      cases hcalls
      exact hiff.2 (h (by omega) hentries (by omega))

theorem searchMemory_inside_iff (query : List UInt8) (n : Int) (results : List MemoryResult) :
    (∀ calls, handleSearchMemoryCalls query n results = some calls → StaysInside searchBufSize calls) ↔
      (0 < n → LinesFit searchBufSize 128 (searchHeader query).length (searchLines n results)) := by
  unfold handleSearchMemoryCalls
  by_cases hn : n ≤ 0
  · rw [if_pos hn]
    exact iff_of_true nofun fun h => by omega
  rw [if_neg hn]
  have hiff := @printAll_inside_iff searchBufSize 128 (by decide) (by decide) (by decide)
    (searchHeader query) (ascii "</result>") (searchLines n results)
  constructor
  · exact fun h _ => hiff.1 (h _ rfl)
  · rintro h calls hcalls
    cases hcalls
    exact hiff.2 (h (by omega))

/-- Both texts stay in their buffers exactly if the memories and the query fit. -/
theorem memory_text_inside_iff (seqLen currentPos numEntries n m : Int) (found : List Found) (query : List UInt8)
    (results : List MemoryResult) :
    ((∀ calls, autoRetrieveAndInject seqLen currentPos numEntries n found = some calls → StaysInside injectBufSize calls) ∧
      ∀ calls, handleSearchMemoryCalls query m results = some calls → StaysInside searchBufSize calls) ↔
    MemoriesFit seqLen currentPos numEntries n m found query results := by
  rw [autoRetrieve_inside_iff, searchMemory_inside_iff]
  constructor
  · rintro ⟨hretrieved, hsearched⟩
    exact ⟨hretrieved, hsearched⟩
  · rintro ⟨hretrieved, hsearched⟩
    exact ⟨hretrieved, hsearched⟩

/-- Of a perfect score, the lines of all results are kept. -/
theorem keptLines_two (text : List UInt8) : keptLines 2 [⟨0x3F800000, some text⟩, ⟨0x3F800000, some text⟩] =
    [ascii "- " ++ text ++ ascii "\n", ascii "- " ++ text ++ ascii "\n"] := by
  have hscore : (Single.gt 0x3F800000 autoRetrieveMinScore || Single.eq 0x3F800000 autoRetrieveMinScore) = true := by decide
  simp [keptLines, hscore]

/-- Two memories of 4095 bytes pass the end of the buffer. -/
theorem long_memories_overflow : ¬ ∀ (seqLen currentPos numEntries n m : Int) (found : List Found) (query : List UInt8)
    (results : List MemoryResult), (∀ r ∈ found, (r.text.getD []).length ≤ 4095) →
    (∀ r ∈ results, (r.text.getD []).length ≤ 4095) → query.length ≤ 4095 →
    (∀ calls, autoRetrieveAndInject seqLen currentPos numEntries n found = some calls → StaysInside injectBufSize calls) ∧
      ∀ calls, handleSearchMemoryCalls query m results = some calls → StaysInside searchBufSize calls := by
  intro h
  obtain ⟨text, htext⟩ : ∃ text : List UInt8, text.length = 4095 := ⟨List.replicate 4095 97, List.length_replicate⟩
  have hinside := (h 4096 0 2 2 0 [⟨0x3F800000, some text⟩, ⟨0x3F800000, some text⟩] [] []
    (by simp [htext]) (by simp) (by simp)).1
  have hfit := ((autoRetrieve_inside_iff 4096 0 2 2 _).1 hinside (by decide) (by decide) (by decide)).2 1
  rw [keptLines_two] at hfit
  have hlen : (ascii "- " ++ text ++ ascii "\n").length = 4098 := by
    rw [List.length_append, List.length_append, htext]
    rfl
  have hheader : retrieveHeader.length = 56 := by decide
  simp only [List.length_cons, List.length_nil, List.take_succ_cons, List.take_zero, List.map_cons, List.map_nil, List.sum_cons,
    List.sum_nil, hlen, hheader, injectBufSize] at hfit
  exact absurd (hfit (by decide) (by decide)) (by decide)

end BitForge.Agent
