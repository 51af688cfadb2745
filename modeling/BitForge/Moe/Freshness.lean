/-
The static buffer `s_xb_q8k` of `moe_ffn.c`: `moe_ffn_forward` fills it from the normalized input under one condition and
its kernels read it under others. A run is a sequence of calls; every block of the buffer carries the number of the call
whose input it holds.
-/
import Mathlib.Tactic

namespace BitForge.Moe

/-- `GGUF_TYPE_Q4_K` -/
def ggufTypeQ4K : Int := 12

/-- What a call of `moe_ffn_forward` reads of the configuration and of the layer's weights, and what is chosen in it: the
number of selected experts that exist, and whether `malloc` succeeds. -/
structure FfnCall where
  dim : Int
  nSharedExperts : Int
  hasExpertQuant : Bool
  expertW13QuantType : Int
  /-- the entries of `shared_w1_type_per_layer` and `shared_w3_type_per_layer`, where there are these arrays -/
  sharedW1Type : Option Int
  sharedW3Type : Option Int
  /-- `moe_shared_w1 && moe_shared_w1[layer]` -/
  sharedW1 : Bool
  validK : Nat
  alloc : Bool
deriving DecidableEq, Repr

/-- `xb_n_blocks` -/
def FfnCall.nBlocks (c : FfnCall) : Int := c.dim.tdiv 256

/-- `s_xb_q8k_blocks` and `s_xb_q8k`; a block that is not initialized has no call. -/
structure ActBuf where
  blocks : Int := 0
  buf : Option (Nat → Option Nat) := none

/-- The buffer grows to `n` blocks. -/
def ActBuf.ensure (s : ActBuf) (n : Int) (alloc : Bool) : ActBuf :=
  if s.blocks < n then
    if alloc then ⟨n, some fun _ => none⟩ else ⟨0, none⟩
  else s

/-- `tn_quantize_q8k` of the input of the call `k`. -/
def ActBuf.quantize (s : ActBuf) (k : Nat) (n : Int) : ActBuf :=
  { s with buf := s.buf.map fun f i => if (i : Int) < n then some k else f i }

/-- A kernel of the call reads `n` blocks of the buffer. -/
structure Consumed where
  call : Nat
  n : Int
  content : Nat → Option Nat

/-- Every block was quantized in the same call. -/
def Consumed.Fresh (e : Consumed) : Prop := ∀ i : Nat, (i : Int) < e.n → e.content i = some e.call

/-- The condition under which the input is quantized. -/
def FfnCall.Quantizes (c : FfnCall) : Prop :=
  c.hasExpertQuant = true ∧ (c.expertW13QuantType = ggufTypeQ4K ∨ c.sharedW1Type = some ggufTypeQ4K)

instance (c : FfnCall) : Decidable c.Quantizes := by
  unfold FfnCall.Quantizes; infer_instance

/-- The two batches of the routed experts. -/
def FfnCall.routed (c : FfnCall) (s : ActBuf) (k : Nat) : List Consumed :=
  if c.hasExpertQuant = true ∧ c.expertW13QuantType = ggufTypeQ4K then
    if 0 < c.validK then
      match s.buf with
      | some f => [⟨k, c.nBlocks, f⟩, ⟨k, c.nBlocks, f⟩]
      | none => []
    else []
  else []

/-- The projections of the shared expert: both in one batch, or each for itself. -/
def FfnCall.shared (c : FfnCall) (s : ActBuf) (k : Nat) : List Consumed :=
  if c.nSharedExperts > 0 ∧ c.sharedW1 = true then
    let w1t := c.sharedW1Type.getD 0
    let w3t := c.sharedW3Type.getD 0
    match s.buf with
    | some f =>
      if w1t = ggufTypeQ4K ∧ w3t = ggufTypeQ4K then [⟨k, c.nBlocks, f⟩]
      else (if w1t = ggufTypeQ4K then [⟨k, c.nBlocks, f⟩] else []) ++ if w3t = ggufTypeQ4K then [⟨k, c.nBlocks, f⟩] else []
    | none => []
  else []

/-- `moe_ffn_forward` as the `k`-th call: the buffer behind it, and what its kernels read. -/
def moeFfnBuffer (s : ActBuf) (k : Nat) (c : FfnCall) : ActBuf × List Consumed :=
  let s := s.ensure c.nBlocks c.alloc
  let s := if s.buf.isSome = true ∧ c.Quantizes then s.quantize k c.nBlocks else s
  (s, c.routed s k ++ c.shared s k)

/-- What the kernels of all calls read. -/
def consumedFrom : ActBuf → Nat → List FfnCall → List Consumed
  | _, _, [] => []
  | s, k, c :: cs => (moeFfnBuffer s k c).2 ++ consumedFrom (moeFfnBuffer s k c).1 (k + 1) cs

/-! ## Which calls are fresh -/

/-- A projection of the shared expert has the type that reads the buffer. -/
def FfnCall.SharedReads (c : FfnCall) : Prop :=
  (c.nSharedExperts > 0 ∧ c.sharedW1 = true) ∧
    (c.sharedW1Type.getD 0 = ggufTypeQ4K ∨ c.sharedW3Type.getD 0 = ggufTypeQ4K)

instance (c : FfnCall) : Decidable c.SharedReads := by
  unfold FfnCall.SharedReads; infer_instance

/-- The shared expert reads the buffer only where the input is quantized, or there is nothing to read. -/
def FfnCall.Covered (s : ActBuf) (c : FfnCall) : Prop :=
  c.SharedReads → (s.ensure c.nBlocks c.alloc).buf = none ∨ c.nBlocks ≤ 0 ∨ c.Quantizes

/-- All calls of a run are covered. -/
def CoveredRun : ActBuf → Nat → List FfnCall → Prop
  | _, _, [] => True
  | s, k, c :: cs => c.Covered s ∧ CoveredRun (moeFfnBuffer s k c).1 (k + 1) cs

/-- The blocks hold the inputs of calls before the `k`-th. -/
def Older (k : Nat) (s : ActBuf) : Prop := ∀ f, s.buf = some f → ∀ i j, f i = some j → j < k

theorem Older.ensure {k : Nat} {s : ActBuf} (h : Older k s) (n : Int) (alloc : Bool) : Older k (s.ensure n alloc) := by
  unfold ActBuf.ensure
  split
  · split
    · rintro f ⟨⟩ i j hj
      cases hj
    · rintro f ⟨⟩
  · exact h

theorem Older.mono {k k' : Nat} {s : ActBuf} (h : Older k s) (hle : k ≤ k') : Older k' s :=
  fun f hf i j hj => (h f hf i j hj).trans_le hle

theorem Older.quantize {k : Nat} {s : ActBuf} (h : Older k s) (n : Int) : Older (k + 1) (s.quantize k n) := by
  intro f hf i j hj
  obtain ⟨g, hg, rfl⟩ := Option.map_eq_some_iff.1 hf
  dsimp only at hj
  split at hj
  · cases hj
    exact Nat.lt_succ_self _
  · exact (h g hg i j hj).trans (Nat.lt_succ_self _)

theorem Older.step {k : Nat} {s : ActBuf} (h : Older k s) (c : FfnCall) : Older (k + 1) (moeFfnBuffer s k c).1 := by
  unfold moeFfnBuffer
  dsimp only
  split
  · exact (h.ensure _ _).quantize _
  · exact (h.ensure _ _).mono (Nat.le_succ k)

/-- What the kernels of a call read is what the buffer holds. -/
theorem mem_routed {c : FfnCall} {s : ActBuf} {k : Nat} {e : Consumed} (h : e ∈ c.routed s k) :
    (c.hasExpertQuant = true ∧ c.expertW13QuantType = ggufTypeQ4K) ∧ ∃ f, s.buf = some f ∧ e = ⟨k, c.nBlocks, f⟩ := by
  unfold FfnCall.routed at h
  split at h
  · next hq =>
    split at h
    · split at h
      · next f hf =>
        simp only [List.mem_cons, List.not_mem_nil, or_false, or_self] at h
        exact ⟨hq, f, hf, h⟩
      · cases h
    · cases h
  · cases h

theorem mem_shared_iff {c : FfnCall} {s : ActBuf} {k : Nat} {e : Consumed} :
    e ∈ c.shared s k ↔ c.SharedReads ∧ ∃ f, s.buf = some f ∧ e = ⟨k, c.nBlocks, f⟩ := by
  unfold FfnCall.shared FfnCall.SharedReads
  by_cases hactive : c.nSharedExperts > 0 ∧ c.sharedW1 = true
  swap
  · rw [if_neg hactive]
    exact iff_of_false List.not_mem_nil fun h => hactive h.1.1
  rw [if_pos hactive]
  dsimp only
  cases hbuf : s.buf with
  | none => exact iff_of_false List.not_mem_nil (by rintro ⟨-, f, ⟨⟩, -⟩)
  | some f =>
    dsimp only
    by_cases h1 : c.sharedW1Type.getD 0 = ggufTypeQ4K <;> by_cases h3 : c.sharedW3Type.getD 0 = ggufTypeQ4K <;>
      simp [h1, h3, hactive]

/-- Where the input is quantized, every block that is read holds it. -/
theorem fresh_of_quantized {s : ActBuf} {k : Nat} {n : Int} {f : Nat → Option Nat} (h : (s.quantize k n).buf = some f) :
    (Consumed.mk k n f).Fresh := by
  obtain ⟨g, -, rfl⟩ := Option.map_eq_some_iff.1 h
  intro i hi
  exact if_pos hi

/-- Where it is not, the first block is older. -/
theorem not_fresh_of_older {s : ActBuf} {k : Nat} {n : Int} {f : Nat → Option Nat} (h : Older k s) (hf : s.buf = some f)
    (hn : 0 < n) : ¬ (Consumed.mk k n f).Fresh := by
  intro hfresh
  have hfirst := hfresh 0 (by dsimp only; omega)
  exact absurd (h f hf 0 k hfirst) (lt_irrefl k)

theorem fresh_of_no_blocks {k : Nat} {n : Int} {f : Nat → Option Nat} (hn : n ≤ 0) : (Consumed.mk k n f).Fresh := by
  intro i hi
  dsimp only at hi
  omega

theorem step_fresh_iff {s : ActBuf} {k : Nat} (h : Older k s) (c : FfnCall) :
    (∀ e ∈ (moeFfnBuffer s k c).2, e.Fresh) ↔ c.Covered s := by
  have holder := h.ensure c.nBlocks c.alloc
  unfold moeFfnBuffer FfnCall.Covered
  dsimp only
  by_cases hq : (s.ensure c.nBlocks c.alloc).buf.isSome = true ∧ c.Quantizes
  · rw [if_pos hq]
    refine iff_of_true (fun e he => ?_) fun _ => .inr (.inr hq.2)
    rcases List.mem_append.1 he with he | he
    · obtain ⟨-, f, hf, rfl⟩ := mem_routed he
      exact fresh_of_quantized hf
    · obtain ⟨-, f, hf, rfl⟩ := mem_shared_iff.1 he
      exact fresh_of_quantized hf
  · rw [if_neg hq]
    -- without a quantization the routed experts read nothing
    have hrouted : ∀ e, e ∉ c.routed (s.ensure c.nBlocks c.alloc) k := by
      intro e he
      obtain ⟨⟨hquant, hw13⟩, f, hf, -⟩ := mem_routed he
      exact hq ⟨by rw [hf]; rfl, hquant, .inl hw13⟩
    constructor
    · intro hfresh hreads
      cases hbuf : (s.ensure c.nBlocks c.alloc).buf with
      | none => exact .inl rfl
      | some f =>
        refine .inr (.inl (not_lt.1 fun hn => not_fresh_of_older holder hbuf hn ?_))
        exact hfresh _ (List.mem_append_right _ (mem_shared_iff.2 ⟨hreads, f, hbuf, rfl⟩))
    · intro hcovered e he
      rcases List.mem_append.1 he with he | he
      · exact absurd he (hrouted e)
      · obtain ⟨hreads, f, hf, rfl⟩ := mem_shared_iff.1 he
        rcases hcovered hreads with hnone | hn | hquant
        · rw [hf] at hnone
          cases hnone
        · exact fresh_of_no_blocks hn
        · exact absurd ⟨by rw [hf]; rfl, hquant⟩ hq

theorem run_fresh_iff : ∀ (cs : List FfnCall) {s : ActBuf} {k : Nat}, Older k s →
    ((∀ e ∈ consumedFrom s k cs, e.Fresh) ↔ CoveredRun s k cs)
  | [], _, _, _ => iff_of_true (fun e he => absurd he List.not_mem_nil) trivial
  | c :: cs, s, k, h => by
    rw [consumedFrom, CoveredRun, ← step_fresh_iff h c, ← run_fresh_iff cs (h.step c)]
    constructor
    · intro hall
      exact ⟨fun e he => hall e (List.mem_append_left _ he), fun e he => hall e (List.mem_append_right _ he)⟩
    · rintro ⟨hfirst, hrest⟩ e he
      rcases List.mem_append.1 he with he | he
      · exact hfirst e he
      · exact hrest e he

/-- In every run of calls, all that the kernels read was quantized in the same call exactly if every call is covered. -/
theorem moe_fresh_iff (cs : List FfnCall) : (∀ e ∈ consumedFrom {} 0 cs, e.Fresh) ↔ CoveredRun {} 0 cs :=
  run_fresh_iff cs (by rintro f ⟨⟩)

/-- A layer whose shared up projection alone is Q4_K reads a buffer that no call has filled. -/
theorem shared_up_stale : ¬ ∀ cs : List FfnCall, ∀ e ∈ consumedFrom {} 0 cs, e.Fresh := by
  intro h
  let c : FfnCall :=
    { dim := 256, nSharedExperts := 2, hasExpertQuant := true, expertW13QuantType := 8, sharedW1Type := some 0
      sharedW3Type := some 12, sharedW1 := true, validK := 6, alloc := true }
  have holder : Older 0 {} := by rintro f ⟨⟩
  have hcovered := (step_fresh_iff holder c).1 fun e he => h [c] e (List.mem_append_left _ he)
  rcases hcovered ⟨by decide, .inr rfl⟩ with hnone | hn | hquant
  · cases hnone
  · exact absurd hn (by decide)
  · exact absurd hquant.2 (by decide)

end BitForge.Moe
