/-
Loops over rows whose iterations touch separate cells: each row writes only the cells it owns and
reads, besides these, only cells no row owns. However the steps of the rows interleave, the memory
is a function of how far each row has come.
-/
import Mathlib.Logic.Function.Basic
import Mathlib.Data.List.Range

namespace BitForge.Lib

/-- A loop over rows; the body of row `r` is its steps `0 ... len r - 1`. -/
structure RowTask (κ β : Type) where
  owner : κ → Option Nat
  len : Nat → Nat
  step : Nat → Nat → (κ → β) → κ → β
  writes : ∀ r j m c, owner c ≠ some r → step r j m c = m c
  reads : ∀ r j m m', (∀ c, owner c = some r ∨ owner c = none → m c = m' c) →
    ∀ c, owner c = some r → step r j m c = step r j m' c

namespace RowTask

variable {κ β : Type} (T : RowTask κ β)

/-- The first `k` steps of row `r`. -/
def rowSteps (r : Nat) (m : κ → β) : Nat → κ → β
  | 0 => m
  | k + 1 => T.step r k (rowSteps r m k)

/-- The rows below `total`, one after another. -/
def sequential (m : κ → β) : Nat → κ → β
  | 0 => m
  | total + 1 => T.rowSteps total (sequential m total) (T.len total)

/-- From `m0` the row `r` has made `p r` steps. -/
def Progressed (m0 : κ → β) (p : Nat → Nat) (m : κ → β) : Prop :=
  ∀ c, m c = (T.owner c).elim (m0 c) fun r => T.rowSteps r m0 (p r) c

theorem rowSteps_other {r : Nat} {c : κ} (hc : T.owner c ≠ some r) (m : κ → β) (k : Nat) : T.rowSteps r m k c = m c := by
  induction k with
  | zero => rfl
  | succ k ih => rw [rowSteps, T.writes r k _ c hc, ih]

variable {T} {m0 m m' : κ → β} {p p' : Nat → Nat}

theorem Progressed.unowned (h : T.Progressed m0 p m) {c : κ} (hc : T.owner c = none) : m c = m0 c := by
  rw [h c, hc, Option.elim_none]

theorem Progressed.owned (h : T.Progressed m0 p m) {c : κ} {r : Nat} (hc : T.owner c = some r) :
    m c = T.rowSteps r m0 (p r) c := by
  rw [h c, hc, Option.elim_some]

theorem Progressed.zero (m0 : κ → β) : T.Progressed m0 (fun _ => 0) m0 := by
  intro c
  cases T.owner c <;> rfl

/-- Equally far progressed memories are equal. -/
theorem Progressed.unique (h : T.Progressed m0 p m) (h' : T.Progressed m0 p' m') (hp : ∀ r, p r = p' r) : m = m' := by
  funext c
  rw [h c, h' c]
  cases T.owner c with
  | none => rfl
  | some r => rw [Option.elim_some, Option.elim_some, hp r]

/-- One step of a row, whatever the other rows have done. -/
theorem Progressed.step (h : T.Progressed m0 p m) {r j : Nat} (hj : p r = j) :
    T.Progressed m0 (Function.update p r (j + 1)) (T.step r j m) := by
  intro c
  by_cases hc : T.owner c = some r
  · have hagree : ∀ d, T.owner d = some r ∨ T.owner d = none → m d = T.rowSteps r m0 j d := by
      rintro d (hd | hd)
      · rw [h.owned hd, hj]
      · rw [h.unowned hd, T.rowSteps_other (by rw [hd]; exact (Option.some_ne_none r).symm)]
    rw [hc, Option.elim_some, Function.update_self, rowSteps]
    exact T.reads r j _ _ hagree c hc
  · rw [T.writes r j m c hc, h c]
    cases ho : T.owner c with
    | none => rfl
    | some r' =>
      have hne : r' ≠ r := by rintro rfl; exact hc ho
      rw [Option.elim_some, Option.elim_some, Function.update_of_ne hne]

/-- A whole row. -/
theorem Progressed.rowSteps (h : T.Progressed m0 p m) {r : Nat} (h0 : p r = 0) (k : Nat) :
    T.Progressed m0 (Function.update p r k) (T.rowSteps r m k) := by
  induction k with
  | zero => rwa [← h0, Function.update_eq_self, h0]
  | succ k ih =>
    have hs := ih.step (Function.update_self r k p)
    rwa [Function.update_idem] at hs

theorem sequential_progressed (m0 : κ → β) (total : Nat) :
    T.Progressed m0 (fun r => if r < total then T.len r else 0) (T.sequential m0 total) := by
  induction total with
  | zero => exact Progressed.zero m0
  | succ total ih =>
    have hp : (fun r => if r < total + 1 then T.len r else 0) =
        Function.update (fun r => if r < total then T.len r else 0) total (T.len total) := by
      funext r
      by_cases hr : r = total
      · subst hr; rw [Function.update_self, if_pos (Nat.lt_succ_self r)]
      · rw [Function.update_of_ne hr]
        exact if_congr (by omega) rfl rfl
    rw [hp]
    exact ih.rowSteps (if_neg (Nat.lt_irrefl total)) (T.len total)

/-- When every row below `total` is through and no other has begun, the memory is that of the
sequential loop. -/
theorem Progressed.eq_sequential (h : T.Progressed m0 p m) {total : Nat} (hlt : ∀ r < total, p r = T.len r)
    (hge : ∀ r, total ≤ r → p r = 0) : m = T.sequential m0 total := by
  refine h.unique (sequential_progressed m0 total) fun r => ?_
  by_cases hr : r < total
  · rw [if_pos hr, hlt r hr]
  · rw [if_neg hr, hge r (Nat.le_of_not_lt hr)]

/-- What the sequential loop leaves in a cell of row `r`. -/
theorem sequential_owned {c : κ} {r total : Nat} (hc : T.owner c = some r) (hr : r < total) (m0 : κ → β) :
    T.sequential m0 total c = T.rowSteps r m0 (T.len r) c := by
  rw [(sequential_progressed m0 total).owned hc, if_pos hr]

theorem sequential_unowned {c : κ} (hc : T.owner c = none) (m0 : κ → β) (total : Nat) :
    T.sequential m0 total c = m0 c :=
  (sequential_progressed m0 total).unowned hc

end RowTask

/-! ## Rows that accumulate a value and store it -/

/-- An address of the memory, or the local variable of a row. -/
inductive Cell
  | mem (a : Nat)
  | sum (r : Nat)
deriving DecidableEq, Repr

/-- A loop over `total` rows; row `r` folds `steps r` values read from memory and stores the result
at `dest r`. The stores go to different addresses, and none of them is read. -/
structure RowKernel (β : Type) where
  total : Nat
  dest : Nat → Nat
  steps : Nat → Nat
  initial : β
  accumulate : Nat → Nat → (Nat → β) → β → β
  inj : ∀ r < total, ∀ r' < total, dest r = dest r' → r = r'
  reads : ∀ r < total, ∀ j < steps r, ∀ m m' : Nat → β, (∀ a, (∀ r' < total, dest r' ≠ a) → m a = m' a) →
    accumulate r j m = accumulate r j m'

namespace RowKernel

variable {β : Type} (K : RowKernel β)

/-- The value of row `r` after `j` steps. -/
def rowSum (r : Nat) (m : Nat → β) : Nat → β
  | 0 => K.initial
  | j + 1 => K.accumulate r j m (rowSum r m j)

/-- The loop on one thread. -/
def loop (m : Nat → β) : Nat → Nat → β
  | 0 => m
  | r + 1 => Function.update (loop m r) (K.dest r) (K.rowSum r (loop m r) (K.steps r))

def owner : Cell → Option Nat
  | .mem a => (List.range K.total).find? fun r => K.dest r = a
  | .sum r => some r

/-- Step 0 of a row sets the sum, the last step stores it. -/
def step (r j : Nat) (m : Cell → β) : Cell → β :=
  if r < K.total then
    match j with
    | 0 => Function.update m (.sum r) K.initial
    | j + 1 =>
      if j < K.steps r then Function.update m (.sum r) (K.accumulate r j (fun a => m (.mem a)) (m (.sum r)))
      else Function.update m (.mem (K.dest r)) (m (.sum r))
  else m

variable {K}

theorem owner_mem {a r : Nat} : K.owner (.mem a) = some r ↔ r < K.total ∧ K.dest r = a := by
  unfold owner
  constructor
  · intro h
    have hmem := List.mem_of_find?_eq_some h
    have hdest := List.find?_some h
    exact ⟨List.mem_range.1 hmem, of_decide_eq_true hdest⟩
  · rintro ⟨hr, rfl⟩
    dsimp only
    cases hf : (List.range K.total).find? fun r' => K.dest r' = K.dest r with
    | none => exact absurd (decide_eq_true (Eq.refl (K.dest r))) (List.find?_eq_none.1 hf r (List.mem_range.2 hr))
    | some r' =>
      have hdest := List.find?_some hf
      have hr' := List.mem_range.1 (List.mem_of_find?_eq_some hf)
      exact congrArg some (K.inj r' hr' r hr (of_decide_eq_true hdest))

theorem owner_none {a : Nat} : K.owner (.mem a) = none ↔ ∀ r < K.total, K.dest r ≠ a := by
  unfold owner
  simp [List.find?_eq_none]

theorem step_other {r j : Nat} {m : Cell → β} {c : Cell} (hc : K.owner c ≠ some r) : K.step r j m c = m c := by
  have hsum : c ≠ .sum r := by rintro rfl; exact hc rfl
  unfold step
  split
  · rename_i hr
    have hmem : c ≠ .mem (K.dest r) := by rintro rfl; exact hc (owner_mem.2 ⟨hr, rfl⟩)
    split
    · exact Function.update_of_ne hsum ..
    · split_ifs
      · exact Function.update_of_ne hsum ..
      · exact Function.update_of_ne hmem ..
  · rfl

theorem step_reads {r j : Nat} {m m' : Cell → β} (h : ∀ c, K.owner c = some r ∨ K.owner c = none → m c = m' c)
    {c : Cell} (hc : K.owner c = some r) : K.step r j m c = K.step r j m' c := by
  have hsum : m (.sum r) = m' (.sum r) := h _ (.inl rfl)
  have hupdate : ∀ (d : Cell) (v v' : β), v = v' → Function.update m d v c = Function.update m' d v' c := by
    rintro d v v' rfl
    by_cases hd : c = d
    · subst hd; rw [Function.update_self, Function.update_self]
    · rw [Function.update_of_ne hd, Function.update_of_ne hd, h c (.inl hc)]
  unfold step
  split
  · rename_i hr
    split
    · exact hupdate _ _ _ rfl
    · split_ifs with hj
      · refine hupdate _ _ _ ?_
        rw [hsum, K.reads r hr _ hj (fun a => m (.mem a)) (fun a => m' (.mem a)) fun a ha => h _ (.inr (owner_none.2 ha))]
      · exact hupdate _ _ _ hsum
  · exact h c (.inl hc)

variable (K) in
def task : RowTask Cell β where
  owner := K.owner
  len r := K.steps r + 2
  step := K.step
  writes _ _ _ _ := step_other
  reads _ _ _ _ h _ := step_reads h

/-! ## The result of the loop -/

theorem task_unowned {a : Nat} (h : ∀ r < K.total, K.dest r ≠ a) : K.task.owner (.mem a) = none := owner_none.2 h

theorem task_sum {r j : Nat} (hr : r < K.total) (hj : j ≤ K.steps r) (m : Cell → β) :
    K.task.rowSteps r m (j + 1) (.sum r) = K.rowSum r (fun a => m (.mem a)) j := by
  induction j with
  | zero =>
    change K.step r 0 m (.sum r) = _
    unfold step
    rw [if_pos hr]
    exact Function.update_self ..
  | succ j ih =>
    have hread : ∀ a, (∀ r' < K.total, K.dest r' ≠ a) → K.task.rowSteps r m (j + 1) (.mem a) = m (.mem a) :=
      fun a ha => K.task.rowSteps_other (by rw [task_unowned ha]; simp) m _
    rw [RowTask.rowSteps]
    change K.step r (j + 1) _ (.sum r) = _
    unfold step
    rw [if_pos hr]
    dsimp only
    rw [if_pos (Nat.lt_of_succ_le hj), Function.update_self, ih (Nat.le_of_succ_le hj), rowSum,
      K.reads r hr j (Nat.lt_of_succ_le hj) _ _ hread]

theorem task_store {r : Nat} (hr : r < K.total) (m : Cell → β) :
    K.task.rowSteps r m (K.task.len r) (.mem (K.dest r)) = K.rowSum r (fun a => m (.mem a)) (K.steps r) := by
  change K.step r (K.steps r + 1) (K.task.rowSteps r m (K.steps r + 1)) _ = _
  unfold step
  rw [if_pos hr]
  dsimp only
  rw [if_neg (Nat.lt_irrefl _), Function.update_self, task_sum hr (Nat.le_refl _)]

theorem rowSum_congr {r : Nat} (hr : r < K.total) {m m' : Nat → β}
    (h : ∀ a, (∀ r' < K.total, K.dest r' ≠ a) → m a = m' a) {j : Nat} (hj : j ≤ K.steps r) :
    K.rowSum r m j = K.rowSum r m' j := by
  induction j with
  | zero => rfl
  | succ j ih => rw [rowSum, rowSum, ih (Nat.le_of_succ_le hj), K.reads r hr j (Nat.lt_of_succ_le hj) _ _ h]

theorem loop_other {a k : Nat} (m : Nat → β) (h : ∀ r < k, K.dest r ≠ a) : K.loop m k a = m a := by
  induction k with
  | zero => rfl
  | succ k ih =>
    rw [loop, Function.update_of_ne (h k (Nat.lt_succ_self k)).symm, ih fun r hr => h r (Nat.lt_succ_of_lt hr)]

/-- What the loop leaves at the address of row `r`. -/
theorem loop_dest {r k : Nat} (hr : r < k) (hk : k ≤ K.total) (m : Nat → β) :
    K.loop m k (K.dest r) = K.rowSum r m (K.steps r) := by
  induction k with
  | zero => exact absurd hr (Nat.not_lt_zero r)
  | succ k ih =>
    rw [loop]
    rcases Nat.lt_succ_iff_lt_or_eq.1 hr with hlt | rfl
    · have hne : K.dest r ≠ K.dest k := fun he => by
        have := K.inj r (by omega) k (by omega) he
        omega
      rw [Function.update_of_ne hne, ih hlt (Nat.le_of_succ_le hk)]
    · rw [Function.update_self]
      refine rowSum_congr hk (fun a ha => loop_other m fun r' hr' => ha r' (by omega)) (Nat.le_refl _)

/-- The rows taken by their steps leave what the loop leaves. -/
theorem sequential_mem (m : Cell → β) (a : Nat) :
    K.task.sequential m K.total (.mem a) = K.loop (fun a => m (.mem a)) K.total a := by
  cases ho : K.owner (.mem a) with
  | none =>
    rw [RowTask.sequential_unowned (task_unowned (owner_none.1 ho)), loop_other _ (owner_none.1 ho)]
  | some r =>
    obtain ⟨hr, rfl⟩ := owner_mem.1 ho
    have htask : K.task.owner (.mem (K.dest r)) = some r := ho
    rw [RowTask.sequential_owned htask hr, task_store hr, loop_dest hr (Nat.le_refl _)]

end RowKernel

end BitForge.Lib
