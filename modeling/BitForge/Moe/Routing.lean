/-
What `top_k_select`, `moe_router_forward` and `moe_ffn_forward` touch of the buffers of 512 entries and of the table of
experts, as a log of accesses. The scores are whatever the router computes: bit patterns of single precision numbers,
a NaN among them. The accesses stay inside if and only if both counts are at most 512.
-/
import BitForge.Lib.Single
import BitForge.Moe.Config

namespace BitForge.Moe

open BitForge.Lib

/-! ## The accesses -/

/-- The arrays of `MOE_SCORE_BUF_SIZE` entries, and `visited[512]`. -/
inductive Buf
  | visited
  | expertScores
  | selectedExperts
  | selectedScores
  | rawLogits
  | gatePtrs
  | upPtrs
  | downPtrs
  | w1Ptrs
  | w3Ptrs
  | w2Ptrs
  | selSc
deriving DecidableEq, Repr

inductive Access
  /-- an entry of an array -/
  | entry (buf : Buf) (i : Int)
  /-- `memset` over the first bytes of `visited` -/
  | clear (bytes : Nat)
  /-- an expert of a layer: its weights are dereferenced -/
  | expert (e : Int)
deriving DecidableEq, Repr

def bufSize : Int := 512

def Access.Safe (numExperts : Int) : Access → Prop
  | .entry _ i => 0 ≤ i ∧ i < bufSize
  | .clear bytes => bytes ≤ 2048
  | .expert e => 0 ≤ e ∧ e < numExperts

/-! ## `top_k_select` -/

/-- The bits of `-FLT_MAX`. -/
def negFltMax : Nat := 0xff7fffff

/-- Where the inner loop of `top_k_select` stands: `best_idx`, `best_val` and its accesses. -/
structure Scan where
  bestIdx : Int
  bestVal : Nat
  log : List Access

def scanBest (scores : Nat → Nat) (visited : List Int) : Nat → Scan
  | 0 => ⟨-1, negFltMax, []⟩
  | n + 1 =>
    let s := scanBest scores visited n
    if (n : Int) ∈ visited then { s with log := s.log ++ [.entry .visited n] }
    else if Single.gt (scores n) s.bestVal then ⟨n, scores n, s.log ++ [.entry .visited n, .entry .expertScores n]⟩
    else { s with log := s.log ++ [.entry .visited n, .entry .expertScores n] }

/-- The picks so far, and the accesses. -/
structure Selection where
  selected : List Int
  log : List Access

/-- `top_k_select`: the first `k` picks. What is visited is what was picked. -/
def topKSelect (scores : Nat → Nat) (n : Int) : Nat → Selection
  -- `n * sizeof(int)` as a `size_t`
  | 0 => ⟨[], [.clear (n * 4 % 2 ^ 64).toNat]⟩
  | k + 1 =>
    let r := topKSelect scores n k
    let s := scanBest scores r.selected n.toNat
    ⟨r.selected ++ [s.bestIdx],
      r.log ++ s.log ++ [.entry .selectedExperts k] ++ if 0 ≤ s.bestIdx then [.entry .visited s.bestIdx] else []⟩

/-! ## `moe_router_forward` and `moe_ffn_forward` -/

/-- The entries `0` to `n - 1` of an array. -/
def entries (buf : Buf) (n : Int) : List Access := (List.range n.toNat).map fun i : Nat => .entry buf i

/-- `moe_router_forward`: the scores of the gate, the softmax over them, the selection and the copy of its scores. -/
def moeRouterForward (scores : Nat → Nat) (numExperts topK : Int) : Selection :=
  let r := topKSelect scores numExperts topK.toNat
  let copied := r.selected.zipIdx.flatMap fun (e, i) =>
    [.entry .selectedExperts i, .entry .selectedScores i] ++ if 0 ≤ e then [.entry .expertScores e] else []
  ⟨r.selected, entries .expertScores numExperts ++ r.log ++ copied⟩

/-- Which of its paths a layer takes. -/
structure LayerPath where
  /-- `g_dump_fp` -/
  dump : Bool
  /-- `g_tn_verbose` -/
  verbose : Bool
  /-- `w->has_expert_quant` -/
  hasExpertQuant : Bool
  /-- `w->expert_w13_quant_type == GGUF_TYPE_Q4_K` -/
  w13Q4K : Bool
  /-- the down projection is none of Q5_1, Q5_0, Q8_0 and Q4_K -/
  w2Other : Bool
deriving DecidableEq, Repr

/-- `prefetch_expert_weights`. -/
def prefetchExpertWeights (selected : List Int) : List Access :=
  selected.zipIdx.flatMap fun (e, i) => [.entry .selectedExperts i] ++ if e < 0 then [] else [.expert e]

/-- The pointer arrays of the batched path, each filled at `valid_k`. -/
def pointerArrays : List Buf := [.gatePtrs, .upPtrs, .downPtrs, .w1Ptrs, .w3Ptrs, .w2Ptrs, .selSc]

/-- The loop that builds the pointer arrays, from the slot `i` on: `valid_k` and the accesses. -/
def buildPointers (numExperts : Int) : List Int → Nat → Nat → Nat × List Access
  | [], _, validK => (validK, [])
  | e :: selected, i, validK =>
    if e < 0 ∨ e ≥ numExperts then
      let (n, log) := buildPointers numExperts selected (i + 1) validK
      (n, .entry .selectedExperts i :: log)
    else
      let (n, log) := buildPointers numExperts selected (i + 1) (validK + 1)
      (n, [.entry .selectedExperts i, .expert e, .entry .selectedScores i] ++
        pointerArrays.map (.entry · validK) ++ log)

/-- The batched path: the pointer arrays are built, then read up to `valid_k`. A down projection of another type
takes its expert from `selected_experts` and not from the pointer arrays. -/
def batchedPath (path : LayerPath) (numExperts : Int) (selected : List Int) : List Access :=
  let (validK, log) := buildPointers numExperts selected 0 0
  let used := (List.range validK).flatMap fun i : Nat => pointerArrays.map (Access.entry · i)
  let other := (List.range validK).flatMap fun i : Nat =>
    [Access.entry .selectedExperts i] ++ (selected[i]?.map Access.expert).toList
  log ++ used ++ if path.w2Other then other else []

/-- The sequential path. -/
def sequentialPath (numExperts : Int) (selected : List Int) : List Access :=
  selected.zipIdx.flatMap fun (e, i) =>
    [.entry .selectedExperts i, .entry .selectedScores i] ++ if e < 0 ∨ e ≥ numExperts then [] else [.expert e]

/-- `moe_ffn_forward` of a layer. -/
def moeFfnForward (mc : MoEConfig) (path : LayerPath) (scores : Nat → Nat) : List Access :=
  let numExperts := mc.numExperts
  let topK := mc.numExpertsPerTok
  let r := moeRouterForward scores numExperts topK
  (if path.dump then entries .rawLogits numExperts else []) ++ r.log ++
    (if path.dump then entries .expertScores numExperts else []) ++
    (if path.verbose then entries .selectedExperts topK ++ entries .selectedScores topK else []) ++
    (if path.hasExpertQuant then prefetchExpertWeights r.selected else []) ++
    if path.hasExpertQuant && path.w13Q4K then batchedPath path numExperts r.selected
    else sequentialPath numExperts r.selected

/-! ## What is picked -/

/-- A pick is an expert that was not picked before, or `-1`. -/
theorem scanBest_idx (scores : Nat → Nat) (visited : List Int) : ∀ n : Nat,
    (scanBest scores visited n).bestIdx = -1 ∨
      0 ≤ (scanBest scores visited n).bestIdx ∧ (scanBest scores visited n).bestIdx < n
  | 0 => .inl rfl
  | n + 1 => by
    have ih := scanBest_idx scores visited n
    unfold scanBest
    dsimp only
    split
    · dsimp only
      omega
    · split <;> dsimp only <;> omega

/-- The picks so far: experts first, and once no score is above `-FLT_MAX` only `-1`. -/
structure Picks (scores : Nat → Nat) (n : Int) (picked experts : List Int) (failed : Nat) : Prop where
  split : picked = experts ++ List.replicate failed (-1)
  inRange : ∀ e ∈ experts, 0 ≤ e ∧ e < n
  /-- after a `-1` the next scan finds nothing either -/
  stuck : 0 < failed → (scanBest scores picked n.toNat).bestIdx = -1

/-- A `-1` among the visited indices changes no scan. -/
theorem scanBest_snoc (scores : Nat → Nat) (visited : List Int) : ∀ n : Nat,
    scanBest scores (visited ++ [-1]) n = scanBest scores visited n
  | 0 => rfl
  | n + 1 => by
    have hmem : ((n : Int) ∈ visited ++ [-1]) ↔ (n : Int) ∈ visited := by
      rw [List.mem_append, List.mem_singleton]
      exact or_iff_left (by omega)
    unfold scanBest
    rw [scanBest_snoc scores visited n]
    simp only [hmem]

theorem topKSelect_picks (scores : Nat → Nat) (n : Int) : ∀ k : Nat,
    ∃ experts failed, Picks scores n (topKSelect scores n k).selected experts failed
  | 0 => ⟨[], 0, rfl, nofun, nofun⟩
  | k + 1 => by
    obtain ⟨experts, failed, hsplit, hrange, hstuck⟩ := topKSelect_picks scores n k
    have hpicked : (topKSelect scores n (k + 1)).selected =
        (topKSelect scores n k).selected ++ [(scanBest scores (topKSelect scores n k).selected n.toNat).bestIdx] := rfl
    rw [hpicked]
    rcases scanBest_idx scores (topKSelect scores n k).selected n.toNat with hnone | ⟨hlo, hhi⟩
    · refine ⟨experts, failed + 1, ?_, hrange, fun _ => ?_⟩
      · rw [hnone, hsplit, List.append_assoc, List.replicate_succ']
      · rw [hnone, scanBest_snoc]
        exact hnone
    · -- a scan that finds an expert is not stuck
      have hzero : failed = 0 := by
        by_contra hne
        rw [hstuck (by omega)] at hlo
        omega
      subst hzero
      rw [List.replicate_zero, List.append_nil] at hsplit
      refine ⟨experts ++ [(scanBest scores (topKSelect scores n k).selected n.toNat).bestIdx], 0, ?_, ?_,
        fun h => absurd h (lt_irrefl 0)⟩
      · rw [hsplit, List.replicate_zero, List.append_nil]
      · intro e he
        rcases List.mem_append.1 he with he | he
        · exact hrange e he
        · rw [List.mem_singleton.1 he]
          omega

theorem topKSelect_length (scores : Nat → Nat) (n : Int) : ∀ k : Nat, (topKSelect scores n k).selected.length = k
  | 0 => rfl
  | k + 1 => by
    have hpicked : (topKSelect scores n (k + 1)).selected =
        (topKSelect scores n k).selected ++ [(scanBest scores (topKSelect scores n k).selected n.toNat).bestIdx] := rfl
    rw [hpicked, List.length_append, topKSelect_length scores n k, List.length_singleton]

/-! ## The accesses of counts in bounds -/

/-- All accesses of a log are safe. -/
def SafeLog (numExperts : Int) (log : List Access) : Prop := ∀ a ∈ log, a.Safe numExperts

section

variable {n : Int} {log log' : List Access}

@[simp] theorem SafeLog.nil : SafeLog n [] := nofun

@[simp] theorem safeLog_cons {a : Access} : SafeLog n (a :: log) ↔ a.Safe n ∧ SafeLog n log := List.forall_mem_cons

@[simp] theorem safeLog_append : SafeLog n (log ++ log') ↔ SafeLog n log ∧ SafeLog n log' := by
  unfold SafeLog
  simp only [List.mem_append, or_imp, forall_and]

theorem SafeLog.flatMap {α : Type} {l : List α} {f : α → List Access} (h : ∀ a ∈ l, SafeLog n (f a)) :
    SafeLog n (l.flatMap f) := by
  intro a ha
  obtain ⟨x, hx, hax⟩ := List.mem_flatMap.1 ha
  exact h x hx a hax

theorem SafeLog.ite {c : Prop} [Decidable c] (h : c → SafeLog n log) (h' : ¬ c → SafeLog n log') :
    SafeLog n (if c then log else log') := by
  split
  · next hc => exact h hc
  · next hc => exact h' hc

/-- An entry below the sizes of the arrays. -/
theorem entry_safe {buf : Buf} {i : Nat} (h : i < 512) : (Access.entry buf i).Safe n := by
  unfold Access.Safe bufSize
  omega

theorem entries_safe {buf : Buf} {m : Int} (hm : m ≤ 512) : SafeLog n (entries buf m) := by
  intro a ha
  obtain ⟨i, hi, rfl⟩ := List.mem_map.1 ha
  have := List.mem_range.1 hi
  exact entry_safe (by omega)

theorem scanBest_safe (scores : Nat → Nat) (visited : List Int) : ∀ m : Nat, m ≤ 512 →
    SafeLog n (scanBest scores visited m).log
  | 0, _ => SafeLog.nil
  | m + 1, hm => by
    have ih := scanBest_safe scores visited m (by omega)
    have hentry : ∀ buf, (Access.entry buf (m : Int)).Safe n := fun buf => entry_safe (by omega)
    unfold scanBest
    dsimp only
    split
    · simp [ih, hentry]
    · split <;> simp [ih, hentry]

theorem topKSelect_safe (scores : Nat → Nat) {m : Int} (h0 : 0 ≤ m) (hm : m ≤ 512) : ∀ k : Nat, k ≤ 512 →
    SafeLog n (topKSelect scores m k).log
  | 0, _ => by
    unfold topKSelect
    rw [safeLog_cons]
    refine ⟨?_, SafeLog.nil⟩
    unfold Access.Safe
    omega
  | k + 1, hk => by
    have ih := topKSelect_safe scores h0 hm k (by omega)
    have hscan := @scanBest_safe n scores (topKSelect scores m k).selected m.toNat (by omega)
    have hidx := scanBest_idx scores (topKSelect scores m k).selected m.toNat
    unfold topKSelect
    dsimp only
    rw [safeLog_append, safeLog_append, safeLog_append]
    refine ⟨⟨⟨ih, hscan⟩, ?_⟩, SafeLog.ite (fun hpos => ?_) fun _ => SafeLog.nil⟩
    · rw [safeLog_cons]
      exact ⟨entry_safe (by omega), SafeLog.nil⟩
    · rw [safeLog_cons]
      refine ⟨?_, SafeLog.nil⟩
      unfold Access.Safe bufSize
      omega

/-- The slots of a list of at most 512 elements. -/
theorem zipIdx_slot {l : List Int} {e : Int} {i : Nat} (hl : l.length ≤ 512) (h : (e, i) ∈ l.zipIdx) : i < 512 ∧ e ∈ l := by
  obtain ⟨-, hlt, hget⟩ := List.mem_zipIdx h
  refine ⟨by omega, ?_⟩
  rw [hget]
  exact List.getElem_mem _

/-- `valid_k` counts the experts of the list, and the pointer arrays are filled below it. -/
theorem buildPointers_safe : ∀ (selected : List Int) (i validK : Nat), i + selected.length ≤ 512 → validK ≤ i →
    (buildPointers n selected i validK).1 = validK + (selected.filter fun e => decide (0 ≤ e ∧ e < n)).length ∧
      SafeLog n (buildPointers n selected i validK).2
  | [], _, _, _, _ => ⟨rfl, SafeLog.nil⟩
  | e :: selected, i, validK, hlen, hle => by
    rw [List.length_cons] at hlen
    have hslot : ∀ buf, (Access.entry buf (i : Int)).Safe n := fun buf => entry_safe (by omega)
    unfold buildPointers
    split
    · next hskip =>
      obtain ⟨hcount, hsafe⟩ := buildPointers_safe selected (i + 1) validK (by omega) (by omega)
      refine ⟨?_, ?_⟩
      · rw [List.filter_cons_of_neg (by simpa using fun h0 => by omega)]
        exact hcount
      · rw [safeLog_cons]
        exact ⟨hslot _, hsafe⟩
    · next htake =>
      obtain ⟨hcount, hsafe⟩ := buildPointers_safe selected (i + 1) (validK + 1) (by omega) (by omega)
      have hexpert : 0 ≤ e ∧ e < n := by omega
      refine ⟨?_, ?_⟩
      · rw [List.filter_cons_of_pos (by simpa using hexpert), List.length_cons]
        dsimp only
        rw [hcount]
        omega
      · have hptrs : SafeLog n (pointerArrays.map (Access.entry · (validK : Int))) := by
          intro a ha
          obtain ⟨buf, -, rfl⟩ := List.mem_map.1 ha
          exact entry_safe (by omega)
        simp only [safeLog_append, safeLog_cons]
        exact ⟨⟨⟨hslot _, hexpert, hslot _, SafeLog.nil⟩, hptrs⟩, hsafe⟩

variable {scores : Nat → Nat} {selected experts : List Int} {failed : Nat}

/-- The slots below `valid_k` hold the experts, since the picks of `-1` come last. -/
theorem Picks.slot (h : Picks scores n selected experts failed) {i : Nat}
    (hi : i < (selected.filter fun e => decide (0 ≤ e ∧ e < n)).length) :
    ∃ e, selected[i]? = some e ∧ 0 ≤ e ∧ e < n := by
  have hfilter : (selected.filter fun e => decide (0 ≤ e ∧ e < n)) = experts := by
    rw [h.split, List.filter_append, List.filter_eq_self.2 (by simpa using h.inRange),
      List.filter_eq_nil_iff.2 (by simp), List.append_nil]
  rw [hfilter] at hi
  refine ⟨experts[i], ?_, h.inRange _ (List.getElem_mem hi)⟩
  rw [h.split, List.getElem?_append_left hi, List.getElem?_eq_getElem hi]

theorem Picks.mem (h : Picks scores n selected experts failed) {e : Int} (he : e ∈ selected) (h0 : 0 ≤ e) : e < n := by
  rw [h.split, List.mem_append] at he
  rcases he with he | he
  · exact (h.inRange e he).2
  · have := List.eq_of_mem_replicate he
    omega

theorem batchedPath_safe (path : LayerPath) (h : Picks scores n selected experts failed) (hlen : selected.length ≤ 512) :
    SafeLog n (batchedPath path n selected) := by
  obtain ⟨hcount, hsafe⟩ := @buildPointers_safe n selected 0 0 (by omega) (le_refl 0)
  rw [Nat.zero_add] at hcount
  have hle : (buildPointers n selected 0 0).1 ≤ 512 := by
    rw [hcount]
    exact (List.length_filter_le _ _).trans hlen
  unfold batchedPath
  dsimp only
  rw [safeLog_append, safeLog_append]
  refine ⟨⟨hsafe, SafeLog.flatMap fun i hi => ?_⟩, SafeLog.ite (fun _ => SafeLog.flatMap fun i hi => ?_) fun _ => SafeLog.nil⟩
  · have hlt := List.mem_range.1 hi
    intro a ha
    obtain ⟨buf, -, rfl⟩ := List.mem_map.1 ha
    exact entry_safe (by omega)
  · have hlt := List.mem_range.1 hi
    obtain ⟨e, hget, hexpert⟩ := h.slot (by rwa [← hcount])
    rw [hget, safeLog_append, safeLog_cons]
    refine ⟨⟨entry_safe (by omega), SafeLog.nil⟩, ?_⟩
    rw [Option.map_some, Option.toList_some, safeLog_cons]
    exact ⟨hexpert, SafeLog.nil⟩

theorem sequentialPath_safe (hlen : selected.length ≤ 512) : SafeLog n (sequentialPath n selected) := by
  refine SafeLog.flatMap ?_
  rintro ⟨e, i⟩ hei
  obtain ⟨hi, -⟩ := zipIdx_slot hlen hei
  dsimp only
  rw [safeLog_append, safeLog_cons, safeLog_cons]
  refine ⟨⟨entry_safe hi, entry_safe hi, SafeLog.nil⟩, SafeLog.ite (fun _ => SafeLog.nil) fun h => ?_⟩
  rw [safeLog_cons]
  exact ⟨by unfold Access.Safe; omega, SafeLog.nil⟩

theorem prefetchExpertWeights_safe (h : Picks scores n selected experts failed) (hlen : selected.length ≤ 512) :
    SafeLog n (prefetchExpertWeights selected) := by
  refine SafeLog.flatMap ?_
  rintro ⟨e, i⟩ hei
  obtain ⟨hi, he⟩ := zipIdx_slot hlen hei
  dsimp only
  rw [safeLog_append, safeLog_cons]
  refine ⟨⟨entry_safe hi, SafeLog.nil⟩, SafeLog.ite (fun _ => SafeLog.nil) fun hpos => ?_⟩
  rw [safeLog_cons]
  exact ⟨⟨by omega, h.mem he (by omega)⟩, SafeLog.nil⟩

theorem moeRouterForward_safe {topK : Int} (h0 : 0 ≤ n) (hn : n ≤ 512) (hk : topK ≤ 512) :
    SafeLog n (moeRouterForward scores n topK).log := by
  have hselect := @topKSelect_safe n scores n h0 hn topK.toNat (by omega)
  obtain ⟨experts, failed, hpicks⟩ := topKSelect_picks scores n topK.toNat
  have hlen := topKSelect_length scores n topK.toNat
  unfold moeRouterForward
  dsimp only
  rw [safeLog_append, safeLog_append]
  refine ⟨⟨entries_safe hn, hselect⟩, SafeLog.flatMap ?_⟩
  rintro ⟨e, i⟩ hei
  obtain ⟨hi, he⟩ := zipIdx_slot (by omega) hei
  dsimp only
  rw [safeLog_append, safeLog_cons, safeLog_cons]
  refine ⟨⟨entry_safe hi, entry_safe hi, SafeLog.nil⟩, SafeLog.ite (fun hpos => ?_) fun _ => SafeLog.nil⟩
  have hlt := hpicks.mem he hpos
  rw [safeLog_cons]
  refine ⟨?_, SafeLog.nil⟩
  unfold Access.Safe bufSize
  omega

end

/-- Every layer touches its buffers and the experts inside, for all scores, if neither count is above 512. -/
theorem moeFfnForward_safe {mc : MoEConfig} (h0 : 0 ≤ mc.numExperts) (hn : mc.numExperts ≤ 512)
    (hk : mc.numExpertsPerTok ≤ 512) (path : LayerPath) (scores : Nat → Nat) :
    SafeLog mc.numExperts (moeFfnForward mc path scores) := by
  obtain ⟨experts, failed, hpicks⟩ := topKSelect_picks scores mc.numExperts mc.numExpertsPerTok.toNat
  have hlen := topKSelect_length scores mc.numExperts mc.numExpertsPerTok.toNat
  have hselected : (moeRouterForward scores mc.numExperts mc.numExpertsPerTok).selected =
      (topKSelect scores mc.numExperts mc.numExpertsPerTok.toNat).selected := rfl
  unfold moeFfnForward
  dsimp only
  rw [hselected]
  simp only [safeLog_append]
  refine ⟨⟨⟨⟨⟨?_, moeRouterForward_safe h0 hn hk⟩, ?_⟩, ?_⟩, ?_⟩, ?_⟩
  · exact SafeLog.ite (fun _ => entries_safe hn) fun _ => SafeLog.nil
  · exact SafeLog.ite (fun _ => entries_safe hn) fun _ => SafeLog.nil
  · exact SafeLog.ite (fun _ => safeLog_append.2 ⟨entries_safe hk, entries_safe hk⟩) fun _ => SafeLog.nil
  · exact SafeLog.ite (fun _ => prefetchExpertWeights_safe hpicks (by omega)) fun _ => SafeLog.nil
  · exact SafeLog.ite (fun _ => batchedPath_safe path hpicks (by omega)) fun _ => sequentialPath_safe (by omega)

/-! ## Counts out of bounds -/

theorem mem_entries {buf : Buf} {n : Int} {i : Nat} (h : (i : Int) < n) : Access.entry buf i ∈ entries buf n :=
  List.mem_map.2 ⟨i, List.mem_range.2 (by omega), rfl⟩

theorem clear_mem_topKSelect (scores : Nat → Nat) (n : Int) : ∀ k : Nat,
    Access.clear (n * 4 % 2 ^ 64).toNat ∈ (topKSelect scores n k).log
  | 0 => List.mem_singleton.2 rfl
  | k + 1 => by
    have ih := clear_mem_topKSelect scores n k
    unfold topKSelect
    exact List.mem_append_left _ (List.mem_append_left _ (List.mem_append_left _ ih))

theorem selected_mem_topKSelect (scores : Nat → Nat) (n : Int) {i : Nat} : ∀ k : Nat, i < k →
    Access.entry .selectedExperts i ∈ (topKSelect scores n k).log
  | k + 1, h => by
    unfold topKSelect
    rcases Nat.lt_succ_iff_lt_or_eq.1 h with hlt | rfl
    · simp [selected_mem_topKSelect scores n k hlt]
    · simp

theorem moeRouterForward_mem {mc : MoEConfig} {path : LayerPath} {scores : Nat → Nat} {a : Access}
    (h : a ∈ (moeRouterForward scores mc.numExperts mc.numExpertsPerTok).log) : a ∈ moeFfnForward mc path scores := by
  unfold moeFfnForward
  simp [h]

theorem topKSelect_mem {mc : MoEConfig} {path : LayerPath} {scores : Nat → Nat} {a : Access}
    (h : a ∈ (topKSelect scores mc.numExperts mc.numExpertsPerTok.toNat).log) : a ∈ moeFfnForward mc path scores :=
  moeRouterForward_mem (List.mem_append_left _ (List.mem_append_right _ h))

/-- The layers are safe exactly if the number of experts is at most 512 and not negative, and as many are selected
at most: with more, or with a negative number that `memset` takes as a `size_t`, every layer writes outside. -/
theorem moeFfnForward_safe_iff {mc : MoEConfig} (hlow : -(2 ^ 31) ≤ mc.numExperts) (path : LayerPath)
    (scores : Nat → Nat) : SafeLog mc.numExperts (moeFfnForward mc path scores) ↔
      (0 ≤ mc.numExperts ∧ mc.numExperts ≤ 512) ∧ mc.numExpertsPerTok ≤ 512 := by
  refine ⟨fun h => ?_, fun ⟨⟨h0, hn⟩, hk⟩ => moeFfnForward_safe h0 hn hk path scores⟩
  have hclear := h _ (topKSelect_mem (clear_mem_topKSelect scores _ _))
  unfold Access.Safe at hclear
  have hn : mc.numExperts ≤ 512 := by
    by_contra hn
    have hscore := h _ (moeRouterForward_mem (List.mem_append_left _ (List.mem_append_left _
      (@mem_entries .expertScores _ 512 (by omega)))))
    unfold Access.Safe bufSize at hscore
    omega
  refine ⟨by omega, ?_⟩
  by_contra hk
  have hsel := h _ (topKSelect_mem (selected_mem_topKSelect scores mc.numExperts (i := 512) _ (by omega)))
  unfold Access.Safe bufSize at hsel
  omega

end BitForge.Moe
