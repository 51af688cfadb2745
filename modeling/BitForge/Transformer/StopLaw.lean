/-
How many pieces `generate_with_callback` delivers and where it stops. After the prompt each forward
pass samples one token; the loop has a step for each prompt token and `max_tokens` more, and the last
prompt token already samples, so with a prompt it can deliver one piece too many. An end-of-sequence
id 0 of the configuration is not recognised. Otherwise the law holds.
-/
import BitForge.Transformer.Generate

namespace BitForge.Transformer

section

variable {L : Type} (cfg : Config) (tok : Tokenizer) (smp : Sampling L) (callback : Nat → List UInt8 → Bool)

/-! ## The law -/

/-- The tokens sampled from the logits of consecutive calls, the first of them in step `k`. -/
def tokensFrom : Nat → List (Call L) → List Int
  | _, [] => []
  | k, c :: calls => (sampleNext smp k c.logits).1 :: tokensFrom (k + 1) calls

/-- The tokens sampled in a run: from the call of the last prompt token on. -/
def sampledTokens (nPrompt : Nat) (calls : List (Call L)) : List Int := tokensFrom smp (nPrompt - 1) (calls.drop (nPrompt - 1))

/-- An end-of-sequence id of the model. -/
def EosId (t : Int) : Prop := t = cfg.eosTokenId ∧ 0 ≤ t ∨ t ∈ tok.eosList

instance (t : Int) : Decidable (EosId cfg tok t) := inferInstanceAs (Decidable (_ ∧ _ ∨ _))

/-- The token before the first one sampled, as the loop keeps it. -/
def lastToken (promptTokens : List Int) : Int :=
  if promptTokens.length ≤ 1 then -1 else promptTokens.getD (promptTokens.length - 1) 0

/-- The pieces of consecutive tokens. -/
def piecesOf : Int → List Int → List (Option (List UInt8))
  | _, [] => []
  | prev, t :: ts => tok.decode prev t :: piecesOf t ts

/-- The callback gets at most `maxTokens` pieces: those of the tokens sampled, in order, up to the first
that is an end-of-sequence id. Nothing follows such a token or a request of the callback to stop. -/
structure StopLaw (promptTokens : List Int) (maxTokens : Int) (calls : List (Call L)) (emitted : List (List UInt8)) :
    Prop where
  count : emitted.length ≤ maxTokens
  pieces : emitted.map some = piecesOf tok (lastToken promptTokens)
    ((sampledTokens smp promptTokens.length calls).takeWhile fun t => ¬ EosId cfg tok t)
  eosLast : ∀ i t, (sampledTokens smp promptTokens.length calls)[i]? = some t → EosId cfg tok t →
    (sampledTokens smp promptTokens.length calls).length = i + 1
  stopLast : ∀ i piece, emitted[i]? = some piece → callback i piece = true →
    (sampledTokens smp promptTokens.length calls).length = i + 1

/-! ## Where a run ends -/

/-- The token before the `i`-th of a sequence. -/
def prevAt (prev : Int) (sampled : Nat → Int) : Nat → Int
  | 0 => prev
  | i + 1 => sampled i

/-- The `i`-th token of a sequence ends the run: the loop takes it for an end of sequence, or the
callback asks to stop at its piece. -/
def Ends (prev : Int) (sampled : Nat → Int) (first i : Nat) : Prop :=
  isEos cfg tok (sampled i) = true ∨
    ∃ piece, tok.decode (prevAt prev sampled i) (sampled i) = some piece ∧ callback (first + i) piece = true

/-- The sampling steps that the bounds of the loop leave. -/
def samplingSteps (nPrompt : Nat) (maxTokens posOffset : Int) : Nat :=
  (min (nPrompt + maxTokens) (cfg.seqLen - posOffset)).toNat - (nPrompt - 1)

/-- A run that samples this sequence samples the `i`-th token of it. -/
def Reached (promptTokens : List Int) (maxTokens posOffset : Int) (sampled : Nat → Int) (i : Nat) : Prop :=
  i < samplingSteps cfg promptTokens.length maxTokens posOffset ∧
    ∀ j < i, ¬ Ends cfg tok callback (lastToken promptTokens) sampled 0 j

theorem ends_shift (prev : Int) (sampled : Nat → Int) (first i : Nat) :
    Ends cfg tok callback (sampled 0) (fun j => sampled (j + 1)) (first + 1) i ↔
      Ends cfg tok callback prev sampled first (i + 1) := by
  have hprev : prevAt (sampled 0) (fun j => sampled (j + 1)) i = prevAt prev sampled (i + 1) := by
    cases i <;> rfl
  unfold Ends
  rw [hprev, Nat.add_right_comm first 1 i]
  rfl

end

section

variable {F X L C R : Type} (K : Kernels F X L C R) (cfg : Config) (mc : Option MoEConfig) (tok : Tokenizer)
variable (smp : Sampling L) (callback : Nat → List UInt8 → Bool) (promptTokens : List Int) (posOffset : Int)

/-! ## One step -/

theorem generateStep_prompt (g : GenState F X L C R) (h : g.step + 1 < promptTokens.length) :
    ∃ g', generateStep K cfg mc tok smp callback promptTokens posOffset g = (g', false) ∧ g'.step = g.step + 1 ∧
      g'.calls.length = g.calls.length + 1 ∧ g'.emitted = g.emitted ∧
      g'.prevToken = promptTokens.getD (g.step + 1) 0 := by
  unfold generateStep
  dsimp only [GenState.forward]
  rw [if_pos h]
  exact ⟨_, rfl, rfl, by simp, rfl, rfl⟩

theorem generateStep_sample (htok : ∀ prev t, (tok.decode prev t).isSome) (g : GenState F X L C R)
    (h : ¬ g.step + 1 < promptTokens.length) :
    ∃ call piece t, t = (sampleNext smp g.step call.logits).1 ∧ tok.decode g.prevToken t = some piece ∧
      ∃ g' stops, generateStep K cfg mc tok smp callback promptTokens posOffset g = (g', stops) ∧
        g'.calls = g.calls ++ [call] ∧
        g'.emitted = g.emitted ++ (if isEos cfg tok t then [] else [piece]) ∧
        stops = (isEos cfg tok t || callback g.emitted.length piece) ∧
        (stops = false → g'.step = g.step + 1 ∧ g'.prevToken = t) := by
  let g₁ := g.forward K cfg mc promptTokens posOffset
  obtain ⟨call, hcalls, hlogits⟩ : ∃ call, g₁.calls = g.calls ++ [call] ∧ call.logits = g₁.s.logits := ⟨_, rfl, rfl⟩
  obtain ⟨piece, hpiece⟩ := Option.isSome_iff_exists.1 (htok g.prevToken (sampleNext smp g.step call.logits).1)
  refine ⟨call, piece, _, rfl, hpiece, ?_⟩
  have hstep : g₁.step = g.step := rfl
  have hprev : g₁.prevToken = g.prevToken := rfl
  have hemitted : g₁.emitted = g.emitted := rfl
  unfold generateStep
  rw [if_neg (by rw [hstep]; exact h)]
  dsimp only
  rw [hstep, hprev, hemitted, ← hlogits, hpiece]
  by_cases heos : isEos cfg tok (sampleNext smp g.step call.logits).1 = true
  · rw [if_pos heos, if_pos heos, heos, Bool.true_or]
    exact ⟨_, _, rfl, hcalls, by rw [List.append_nil], rfl, nofun⟩
  · rw [if_neg heos, if_neg heos, Bool.eq_false_iff.2 heos, Bool.false_or]
    dsimp only
    split
    · next hstop =>
      rw [hstop]
      exact ⟨_, _, rfl, hcalls, rfl, rfl, nofun⟩
    · next hgo =>
      rw [Bool.eq_false_iff.2 hgo]
      exact ⟨_, _, rfl, hcalls, rfl, rfl, fun _ => ⟨rfl, rfl⟩⟩

/-! ## The loop -/

theorem generateLoop_prompt (j m : Nat) (g : GenState F X L C R) (h : g.step + j ≤ promptTokens.length - 1) :
    ∃ g', generateLoop K cfg mc tok smp callback promptTokens posOffset (j + m) g =
        generateLoop K cfg mc tok smp callback promptTokens posOffset m g' ∧
      g'.step = g.step + j ∧ g'.calls.length = g.calls.length + j ∧ g'.emitted = g.emitted ∧
      g'.prevToken = if j = 0 then g.prevToken else promptTokens.getD (g.step + j) 0 := by
  induction j generalizing g with
  | zero => exact ⟨g, by rw [Nat.zero_add], rfl, rfl, rfl, rfl⟩
  | succ j ih =>
    obtain ⟨g₁, heq, hstep, hcalls, hemitted, hprev⟩ :=
      generateStep_prompt K cfg mc tok smp callback promptTokens posOffset g (by omega)
    obtain ⟨g', hloop, hstep', hcalls', hemitted', hprev'⟩ := ih g₁ (by omega)
    refine ⟨g', ?_, by omega, by omega, hemitted'.trans hemitted, ?_⟩
    · rw [Nat.add_right_comm, generateLoop, heq]
      exact hloop
    · rw [if_neg (Nat.succ_ne_zero j), hprev']
      split
      · next hj => rw [hprev, hj]
      · rw [hstep, Nat.add_assoc, Nat.add_comm 1 j]

/-- The sampling steps: the calls that they make, and what the callback gets. -/
theorem generateLoop_sample (htok : ∀ prev t, (tok.decode prev t).isSome) (m : Nat) (g : GenState F X L C R)
    (h : promptTokens.length ≤ g.step + 1) :
    ∃ calls, (generateLoop K cfg mc tok smp callback promptTokens posOffset m g).calls = g.calls ++ calls ∧
      (generateLoop K cfg mc tok smp callback promptTokens posOffset m g).emitted.map some = g.emitted.map some ++
        piecesOf tok g.prevToken ((tokensFrom smp g.step calls).takeWhile fun t => !isEos cfg tok t) ∧
      ∀ sampled : Nat → Int, (∀ i t, (tokensFrom smp g.step calls)[i]? = some t → sampled i = t) →
        ∀ i, i < (tokensFrom smp g.step calls).length ↔
          i < m ∧ ∀ j < i, ¬ Ends cfg tok callback g.prevToken sampled g.emitted.length j := by
  induction m generalizing g with
  | zero =>
    refine ⟨[], (List.append_nil _).symm, (List.append_nil _).symm, fun sampled _ i => ?_⟩
    exact ⟨fun hi => absurd hi (Nat.not_lt_zero i), fun hi => absurd hi.1 (Nat.not_lt_zero i)⟩
  | succ m ih =>
    obtain ⟨call, piece, t, ht, hpiece, g₁, stops, heq, hcalls, hemitted, hstops, hnext⟩ :=
      generateStep_sample K cfg mc tok smp callback promptTokens posOffset htok g (by omega)
    rw [generateLoop, heq]
    have hends : ∀ sampled : Nat → Int, sampled 0 = t →
        (Ends cfg tok callback g.prevToken sampled g.emitted.length 0 ↔ stops = true) := by
      intro sampled h0
      unfold Ends
      rw [h0, hstops, Bool.or_eq_true, prevAt, hpiece]
      simp
    cases hs : stops with
    | true =>
      dsimp only
      refine ⟨[call], hcalls, ?_, fun sampled hsampled i => ?_⟩
      · rw [hemitted, List.map_append, tokensFrom, tokensFrom, ← ht]
        by_cases heos : isEos cfg tok t = true
        · simp [heos, piecesOf]
        · simp [heos, piecesOf, hpiece]
      · have h0 : sampled 0 = t := hsampled 0 t (by rw [ht]; rfl)
        constructor
        · intro hi
          rw [tokensFrom, tokensFrom, List.length_singleton] at hi
          exact ⟨by omega, fun j hj => by omega⟩
        · rintro ⟨-, hnone⟩
          by_contra hi
          rw [tokensFrom, tokensFrom, List.length_singleton] at hi
          exact hnone 0 (by omega) ((hends sampled h0).2 hs)
    | false =>
      rw [hs] at hstops hnext
      obtain ⟨hstep, hprev⟩ := hnext rfl
      have heos : isEos cfg tok t = false := (Bool.or_eq_false_iff.1 hstops.symm).1
      rw [heos, if_neg (by decide)] at hemitted
      obtain ⟨calls, hcalls', hemitted', hreach⟩ := ih g₁ (by omega)
      rw [hstep, hprev] at hemitted' hreach
      refine ⟨call :: calls, ?_, ?_, fun sampled hsampled i => ?_⟩
      · rw [hcalls', hcalls, List.append_assoc]
        rfl
      · rw [hemitted', hemitted, tokensFrom, ← ht, List.takeWhile_cons, heos]
        simp [piecesOf, hpiece]
      · have h0 : sampled 0 = t := hsampled 0 t (by rw [tokensFrom, ← ht]; rfl)
        have hlen : (tokensFrom smp g.step (call :: calls)).length = (tokensFrom smp (g.step + 1) calls).length + 1 := rfl
        rw [hlen]
        cases i with
        | zero => exact ⟨fun _ => ⟨by omega, fun j hj => absurd hj (Nat.not_lt_zero j)⟩, fun _ => by omega⟩
        | succ i =>
          have hshift := hreach (fun j => sampled (j + 1)) (fun j t' hj => hsampled (j + 1) t' hj) i
          have hlength : g₁.emitted.length = g.emitted.length + 1 := by rw [hemitted, List.length_append, List.length_singleton]
          rw [Nat.add_lt_add_iff_right, hshift, Nat.add_lt_add_iff_right, hlength, ← h0]
          refine and_congr_right fun _ => ⟨fun hnone j hj => ?_, fun hnone j hj => ?_⟩
          · cases j with
            | zero =>
              rw [hends sampled h0, hs]
              exact nofun
            | succ j =>
              rw [← ends_shift cfg tok callback g.prevToken sampled]
              exact hnone j (by omega)
          · rw [ends_shift cfg tok callback g.prevToken sampled]
            exact hnone (j + 1) (by omega)

/-- The sampled tokens of a run of the loop, and the pieces of them that the callback gets. -/
theorem generateLoop_run (htok : ∀ prev t, (tok.decode prev t).isSome) (m : Nat) (g : GenState F X L C R)
    (hstep : g.step = 0) (hprev : g.prevToken = -1) (hcalls : g.calls = []) (hemitted : g.emitted = []) :
    (generateLoop K cfg mc tok smp callback promptTokens posOffset m g).emitted.map some =
        piecesOf tok (lastToken promptTokens) ((sampledTokens smp promptTokens.length
          (generateLoop K cfg mc tok smp callback promptTokens posOffset m g).calls).takeWhile fun t => !isEos cfg tok t) ∧
      ∀ sampled : Nat → Int, (∀ i t, (sampledTokens smp promptTokens.length
          (generateLoop K cfg mc tok smp callback promptTokens posOffset m g).calls)[i]? = some t → sampled i = t) →
        ∀ i, i < (sampledTokens smp promptTokens.length
          (generateLoop K cfg mc tok smp callback promptTokens posOffset m g).calls).length ↔
            i < m - (promptTokens.length - 1) ∧ ∀ j < i, ¬ Ends cfg tok callback (lastToken promptTokens) sampled 0 j := by
  rcases Nat.lt_or_ge m (promptTokens.length - 1) with hlt | hge
  · -- the loop ends inside the prompt
    obtain ⟨g', hloop, -, hlen, hem, -⟩ :=
      generateLoop_prompt K cfg mc tok smp callback promptTokens posOffset m 0 g (by omega)
    have hdrop : g'.calls.drop (promptTokens.length - 1) = [] := by
      apply List.drop_eq_nil_of_le
      rw [hlen, hcalls, List.length_nil]
      omega
    have hnone : sampledTokens smp promptTokens.length g'.calls = [] := by
      rw [sampledTokens, hdrop, tokensFrom]
    have hrun : generateLoop K cfg mc tok smp callback promptTokens posOffset m g = g' := hloop
    rw [hrun, hem, hemitted, hnone]
    refine ⟨rfl, fun sampled _ i => ?_⟩
    rw [List.length_nil]
    exact ⟨fun hi => absurd hi (Nat.not_lt_zero i), fun hi => by omega⟩
  · obtain ⟨g', hloop, hstep', hlen, hem, hprev'⟩ :=
      generateLoop_prompt K cfg mc tok smp callback promptTokens posOffset (promptTokens.length - 1)
        (m - (promptTokens.length - 1)) g (by omega)
    rw [Nat.add_sub_cancel' hge] at hloop
    obtain ⟨calls, hcalls', hemitted', hreach⟩ :=
      generateLoop_sample K cfg mc tok smp callback promptTokens posOffset htok (m - (promptTokens.length - 1)) g' (by omega)
    have hlast : g'.prevToken = lastToken promptTokens := by
      rw [hprev', hprev, hstep, Nat.zero_add, lastToken]
      by_cases h1 : promptTokens.length ≤ 1
      · rw [if_pos (by omega), if_pos h1]
      · rw [if_neg (by omega), if_neg h1]
    have hsampled : sampledTokens smp promptTokens.length
        (generateLoop K cfg mc tok smp callback promptTokens posOffset m g).calls = tokensFrom smp g'.step calls := by
      rw [hloop, hcalls', sampledTokens, List.drop_left' (by rw [hlen, hcalls, List.length_nil, Nat.zero_add]), hstep',
        hstep, Nat.zero_add]
    rw [hsampled, hloop, hemitted', hem, hemitted, hlast]
    rw [hlast, hem, hemitted] at hreach
    exact ⟨rfl, hreach⟩

end

/-! ## The exact condition -/

theorem length_piecesOf (tok : Tokenizer) (ts : List Int) (prev : Int) : (piecesOf tok prev ts).length = ts.length := by
  induction ts generalizing prev with
  | nil => rfl
  | cons t ts ih => rw [piecesOf, List.length_cons, List.length_cons, ih]

theorem getElem?_piecesOf (tok : Tokenizer) (ts : List Int) (prev : Int) (sampled : Nat → Int)
    (h : ∀ i t, ts[i]? = some t → sampled i = t) (i : Nat) :
    (piecesOf tok prev ts)[i]? = ts[i]?.map fun t => tok.decode (prevAt prev sampled i) t := by
  induction ts generalizing prev sampled i with
  | nil => rfl
  | cons t ts ih =>
    cases i with
    | zero => rfl
    | succ i =>
      have h0 : sampled 0 = t := h 0 t rfl
      have hi := ih t (fun j => sampled (j + 1)) (fun j t' hj => h (j + 1) t' hj) i
      rw [piecesOf, List.getElem?_cons_succ, List.getElem?_cons_succ, hi]
      cases i with
      | zero => rw [prevAt, prevAt, h0]
      | succ i => rfl

theorem length_takeWhile_le {p : Int → Bool} {ts : List Int} {i : Nat} {t : Int} (hi : ts[i]? = some t) (ht : p t = false) :
    (ts.takeWhile p).length ≤ i := by
  induction ts generalizing i with
  | nil => cases hi
  | cons a ts ih =>
    rw [List.takeWhile_cons]
    cases i with
    | zero =>
      rw [List.getElem?_cons_zero, Option.some.injEq] at hi
      rw [hi, ht]
      exact Nat.le_refl 0
    | succ i =>
      rw [List.getElem?_cons_succ] at hi
      split
      · exact Nat.succ_le_succ (ih hi)
      · exact Nat.zero_le _

theorem le_length_takeWhile {p : Int → Bool} {ts : List Int} {k : Nat} (hk : k ≤ ts.length)
    (h : ∀ i t, i < k → ts[i]? = some t → p t = true) : k ≤ (ts.takeWhile p).length := by
  induction ts generalizing k with
  | nil => exact hk
  | cons a ts ih =>
    cases k with
    | zero => exact Nat.zero_le _
    | succ k =>
      rw [List.takeWhile_cons, if_pos (h 0 a (Nat.succ_pos k) rfl)]
      exact Nat.succ_le_succ (ih (Nat.le_of_succ_le_succ hk) fun i t hi ht => h (i + 1) t (Nat.succ_lt_succ hi) ht)

theorem takeWhile_congr {p q : Int → Bool} {ts : List Int} (h : ∀ (i : Nat) (t : Int), ts[i]? = some t → p t = q t) :
    ts.takeWhile p = ts.takeWhile q := by
  induction ts with
  | nil => rfl
  | cons a ts ih =>
    rw [List.takeWhile_cons, List.takeWhile_cons, h 0 a rfl, ih fun i t ht => h (i + 1) t ht]

/-- The loop takes all end-of-sequence ids for one but an id 0 that only the configuration gives. -/
theorem eosId_iff (cfg : Config) (tok : Tokenizer) (t : Int) :
    EosId cfg tok t ↔ isEos cfg tok t = true ∨ (t = 0 ∧ cfg.eosTokenId = 0 ∧ 0 ∉ tok.eosList) := by
  have hcode : isEos cfg tok t = true ↔ (0 < cfg.eosTokenId ∧ t = cfg.eosTokenId) ∨ t ∈ tok.eosList := by
    simp [isEos, List.any_eq_true]
  rw [hcode]
  unfold EosId
  constructor
  · rintro (⟨rfl, hpos⟩ | hmem)
    · rcases lt_or_eq_of_le hpos with hlt | heq
      · exact .inl (.inl ⟨hlt, rfl⟩)
      · by_cases hmem : 0 ∈ tok.eosList
        · exact .inl (.inr (heq ▸ hmem))
        · exact .inr ⟨heq.symm, heq.symm, hmem⟩
    · exact .inl (.inr hmem)
  · rintro ((⟨hpos, rfl⟩ | hmem) | ⟨rfl, heq, -⟩)
    · exact .inl ⟨rfl, Int.le_of_lt hpos⟩
    · exact .inr hmem
    · exact .inl ⟨heq.symm, Int.le_refl 0⟩

theorem stopLaw_iff_of_run {L : Type} (cfg : Config) (tok : Tokenizer) (smp : Sampling L)
    (callback : Nat → List UInt8 → Bool) (promptTokens : List Int) (maxTokens posOffset : Int) (hmax : 0 ≤ maxTokens)
    (sampled : Nat → Int) (calls : List (Call L)) (emitted : List (List UInt8))
    (hpieces : emitted.map some = piecesOf tok (lastToken promptTokens)
      ((sampledTokens smp promptTokens.length calls).takeWhile fun t => !isEos cfg tok t))
    (hreach : ∀ i, i < (sampledTokens smp promptTokens.length calls).length ↔
      Reached cfg tok callback promptTokens maxTokens posOffset sampled i)
    (hsampled : ∀ i t, (sampledTokens smp promptTokens.length calls)[i]? = some t → sampled i = t) :
    StopLaw cfg tok smp callback promptTokens maxTokens calls emitted ↔
      (∀ i, Reached cfg tok callback promptTokens maxTokens posOffset sampled i →
        ¬ (sampled i = 0 ∧ cfg.eosTokenId = 0 ∧ 0 ∉ tok.eosList)) ∧
      (Reached cfg tok callback promptTokens maxTokens posOffset sampled maxTokens.toNat →
        isEos cfg tok (sampled maxTokens.toNat) = true) := by
  generalize hT : sampledTokens smp promptTokens.length calls = T at *
  have hget : ∀ i, i < T.length → T[i]? = some (sampled i) := by
    intro i hi
    rw [List.getElem?_eq_getElem hi, hsampled i T[i] (List.getElem?_eq_getElem hi)]
  have hlength : emitted.length = (T.takeWhile fun t => !isEos cfg tok t).length := by
    rw [← List.length_map some, hpieces, length_piecesOf]
  -- a token that ends the run is the last one
  have hlast : ∀ i, i < T.length → Ends cfg tok callback (lastToken promptTokens) sampled 0 i → T.length = i + 1 := by
    intro i hi hends
    rcases Nat.lt_or_ge (i + 1) T.length with hlt | hge
    · exact absurd hends (((hreach (i + 1)).1 hlt).2 i (Nat.lt_succ_self i))
    · omega
  constructor
  · intro hlaw
    refine ⟨fun i hi hzero => ?_, fun hi => ?_⟩
    · have hlt := (hreach i).2 hi
      have heos : EosId cfg tok (sampled i) := (eosId_iff cfg tok _).2 (.inr hzero)
      have hnot : ∀ j < i + 1, isEos cfg tok (sampled j) = false := by
        intro j hj
        rcases Nat.lt_or_ge j i with hlt' | hge
        · have hno : ¬ isEos cfg tok (sampled j) = true := fun h => hi.2 j hlt' (.inl h)
          simpa using hno
        · obtain rfl : j = i := by omega
          rw [hzero.1]
          simp only [isEos, hzero.2.1, List.any_eq_false, Bool.or_eq_false_iff]
          exact ⟨rfl, fun x hx h => hzero.2.2 (by rw [eq_of_beq h]; exact hx)⟩
      -- the loop misses the id and delivers its piece; the law stops in front of it
      have hmissed : i + 1 ≤ (T.takeWhile fun t => !isEos cfg tok t).length := by
        refine le_length_takeWhile hlt fun j t hj ht => ?_
        rw [← hsampled j t ht, hnot j hj]
        rfl
      have hcut : (T.takeWhile fun t => ¬ EosId cfg tok t).length ≤ i :=
        length_takeWhile_le (hget i hlt) (by simpa using heos)
      have hlaw' := congrArg List.length hlaw.pieces
      rw [hT, List.length_map, length_piecesOf] at hlaw'
      omega
    · by_contra hnot
      have hlt := (hreach _).2 hi
      -- the step behind the bound samples a token, whose piece is one too many
      have hmissed : maxTokens.toNat + 1 ≤ (T.takeWhile fun t => !isEos cfg tok t).length := by
        refine le_length_takeWhile hlt fun j t hj ht => ?_
        rw [← hsampled j t ht]
        rcases Nat.lt_or_ge j maxTokens.toNat with hlt' | hge
        · have := hi.2 j hlt'
          have hno : ¬ isEos cfg tok (sampled j) = true := fun h => this (.inl h)
          simpa using hno
        · obtain rfl : j = maxTokens.toNat := by omega
          simpa using hnot
      have hcount := hlaw.count
      omega
  · rintro ⟨hzero, hbound⟩
    -- where no id is missed, the loop's test is the one of the law
    have hsame : ∀ (i : Nat) (t : Int), T[i]? = some t → (EosId cfg tok t ↔ isEos cfg tok t = true) := by
      intro i t ht
      have hi : i < T.length := (List.getElem?_eq_some_iff.1 ht).1
      rw [eosId_iff, ← hsampled i t ht]
      exact or_iff_left (hzero i ((hreach i).1 hi))
    refine ⟨?_, ?_, ?_, ?_⟩
    · by_contra hcount
      have hlong : maxTokens.toNat < T.length := by
        have := (List.takeWhile_prefix (fun t => !isEos cfg tok t) (l := T)).length_le
        omega
      have heos := hbound ((hreach _).1 hlong)
      have := length_takeWhile_le (p := fun t => !isEos cfg tok t) (hget _ hlong) (by rw [heos]; rfl)
      omega
    · rw [hpieces, hT]
      congr 1
      refine takeWhile_congr fun (i : Nat) t ht => ?_
      rw [Bool.eq_iff_iff]
      simp [hsame i t ht]
    · intro i t ht heos
      rw [hT] at ht ⊢
      have hi : i < T.length := (List.getElem?_eq_some_iff.1 ht).1
      refine hlast i hi (.inl ?_)
      rw [hsampled i t ht]
      exact (hsame i t ht).1 heos
    · intro i piece hpiece hstop
      rw [hT]
      have hi : i < emitted.length := (List.getElem?_eq_some_iff.1 hpiece).1
      have hlt : i < T.length := by
        have := (List.takeWhile_prefix (fun t => !isEos cfg tok t) (l := T)).length_le
        omega
      refine hlast i hlt (.inr ⟨piece, ?_, by rw [Nat.zero_add]; exact hstop⟩)
      have hat := congrArg (·[i]?) hpieces
      obtain ⟨after, hafter⟩ := List.takeWhile_prefix (fun t => !isEos cfg tok t) (l := T)
      have hsampled' : ∀ j t, (T.takeWhile fun t => !isEos cfg tok t)[j]? = some t → sampled j = t := by
        intro j t hj
        refine hsampled j t ?_
        rw [← hafter, List.getElem?_append_left (List.getElem?_eq_some_iff.1 hj).1]
        exact hj
      rw [List.getElem?_map, hpiece, getElem?_piecesOf tok _ _ sampled hsampled', Option.map_some] at hat
      obtain ⟨t, ht, hdecode⟩ := Option.map_eq_some_iff.1 hat.symm
      rw [hsampled' i t ht]
      exact hdecode

/-- A run keeps the law exactly when it samples no end-of-sequence id that the loop misses, and does
not get to an ordinary token after `maxTokens` others. -/
theorem generateWithCallback_stopLaw_iff {F X L C R : Type} (K : Kernels F X L C R) (cfg : Config) (mc : Option MoEConfig)
    (tok : Tokenizer) (smp : Sampling L) (callback : Nat → List UInt8 → Bool) (prompt : List UInt8) (maxTokens : Int)
    (s : RunState F X L C R) (promptTokens : List Int) (sampled : Nat → Int) (hmax : 0 ≤ maxTokens)
    (htok : ∀ prev t, (tok.decode prev t).isSome) (hprompt : encodePrompt cfg tok prompt = some promptTokens)
    (hsampled : ∀ i t, (sampledTokens smp promptTokens.length
      (generateWithCallback K cfg mc tok smp callback prompt maxTokens s).2.1)[i]? = some t → sampled i = t) :
    StopLaw cfg tok smp callback promptTokens maxTokens
        (generateWithCallback K cfg mc tok smp callback prompt maxTokens s).2.1
        (generateWithCallback K cfg mc tok smp callback prompt maxTokens s).2.2 ↔
      (∀ i, Reached cfg tok callback promptTokens maxTokens s.currentPos sampled i →
        ¬ (sampled i = 0 ∧ cfg.eosTokenId = 0 ∧ 0 ∉ tok.eosList)) ∧
      (Reached cfg tok callback promptTokens maxTokens s.currentPos sampled maxTokens.toNat →
        isEos cfg tok (sampled maxTokens.toNat) = true) := by
  unfold generateWithCallback at hsampled ⊢
  rw [hprompt] at hsampled ⊢
  dsimp only at hsampled ⊢
  obtain ⟨g₀, hg⟩ : ∃ g₀ : GenState F X L C R, g₀ =
    ⟨{ s with kv := { s.kv with sw := Kv.swInit s.maxSeqLen (promptTokens.length + s.currentPos) } }, 0, -1, 0, 0, [], []⟩ :=
    ⟨_, rfl⟩
  rw [← hg] at hsampled ⊢
  have hrun := generateLoop_run K cfg mc tok smp callback promptTokens s.currentPos htok
    (min (promptTokens.length + maxTokens) (cfg.seqLen - s.currentPos)).toNat g₀ (by rw [hg]) (by rw [hg]) (by rw [hg])
    (by rw [hg])
  revert hrun hsampled
  generalize generateLoop K cfg mc tok smp callback promptTokens s.currentPos
    (min (promptTokens.length + maxTokens) (cfg.seqLen - s.currentPos)).toNat g₀ = r
  rintro hsampled ⟨hpieces, hreach⟩
  exact stopLaw_iff_of_run cfg tok smp callback promptTokens maxTokens s.currentPos hmax sampled r.calls r.emitted
    hpieces (hreach sampled hsampled) hsampled

/-! ## One piece too many -/

/-- Kernels without floats. -/
def noKernels : Kernels Unit Unit Unit Unit Unit :=
  { embedToken := fun _ => ()
    project := fun _ _ _ _ _ _ => ()
    attend := fun _ _ _ _ _ => ()
    linearAttn := fun _ _ _ _ => ((), (), ())
    ffn := fun _ _ _ _ => ()
    finalNorm := fun _ => ()
    classify := fun _ => () }

/-- Every text is one token, every token the letter `a`. -/
def oneTokenizer : Tokenizer :=
  { encode := fun _ maxTokens => if 1 ≤ maxTokens then some [0] else none
    decode := fun _ _ => some [97]
    findId := fun _ => -1
    vocab := [[97], [98]]
    chatTemplate := none
    chatTemplateApply := fun _ _ _ _ => none
    bosTokenId := -1
    eosTokenId := 1
    eosList := [1] }

/-- Samples always the same token. -/
def alwaysSample (token : Int) : Sampling Unit :=
  { greedy := true
    nucleus := false
    sampleArgmax := fun _ => token
    applyTemperature := id
    sampleTopP := fun _ _ => token
    softmax := id
    pickCdf := fun _ _ => token }

def oneConfig : Config := ⟨1, 1, 1, 1, 2, 8, -1, 1⟩

def oneState : RunState Unit Unit Unit Unit Unit :=
  ⟨(), (), ⟨fun _ _ => (), Kv.swInit 8 0⟩, fun _ => (), fun _ => (), 0, 8, none⟩

theorem stopLaw_iff_eos :
    StopLaw oneConfig oneTokenizer (alwaysSample 1) (fun _ _ => false) [0] 2
        (generateWithCallback noKernels oneConfig none oneTokenizer (alwaysSample 1) (fun _ _ => false) [120] 2 oneState).2.1
        (generateWithCallback noKernels oneConfig none oneTokenizer (alwaysSample 1) (fun _ _ => false) [120] 2 oneState).2.2 ↔
      (∀ i, Reached oneConfig oneTokenizer (fun _ _ => false) [0] 2 oneState.currentPos (fun _ => 1) i →
        ¬ ((1 : Int) = 0 ∧ oneConfig.eosTokenId = 0 ∧ 0 ∉ oneTokenizer.eosList)) ∧
      (Reached oneConfig oneTokenizer (fun _ _ => false) [0] 2 oneState.currentPos (fun _ => 1) (2 : Int).toNat →
        isEos oneConfig oneTokenizer 1 = true) :=
  generateWithCallback_stopLaw_iff noKernels oneConfig none oneTokenizer (alwaysSample 1) (fun _ _ => false) [120] 2
    oneState [0] (fun _ => 1) (by decide) (fun _ _ => rfl) rfl (by
      have hrun : sampledTokens (alwaysSample 1) 1
          (generateWithCallback noKernels oneConfig none oneTokenizer (alwaysSample 1) (fun _ _ => false) [120] 2
            oneState).2.1 = [1] := rfl
      intro i t ht
      change (sampledTokens (alwaysSample 1) 1 _)[i]? = some t at ht
      rw [hrun] at ht
      cases i with
      | zero => exact Option.some.inj ht
      | succ i => cases ht)

/-- A prompt of one token with `max_tokens = 0`: one piece is delivered. -/
theorem one_piece_for_none :
    ¬ StopLaw oneConfig oneTokenizer (alwaysSample 0) (fun _ _ => false) [0] 0
      (generateWithCallback noKernels oneConfig none oneTokenizer (alwaysSample 0) (fun _ _ => false) [120] 0 oneState).2.1
      (generateWithCallback noKernels oneConfig none oneTokenizer (alwaysSample 0) (fun _ _ => false) [120] 0
        oneState).2.2 :=
  fun h => absurd h.count (by decide)

end BitForge.Transformer
