/-
The matrix products that run on the pool. A row of every format folds the blocks of its weights
with the blocks of the activations and sums the lanes of the result; one task does the rows of one matrix, the batch task those of
`k` matrices in one dispatch, as the experts of a mixture need them.
-/
import BitForge.Gguf.Reader
import BitForge.Pool.Compute

namespace BitForge.Pool

open BitForge.Lib
open BitForge.Gguf (GGUFType ggufBlockElems ggufBlockSize)

/-- The row function of a format: `elems` inputs a block, held in `acts` cells of the activations
and `bytes` cells of the weights; `add` adds the product of a block to the lanes of the sum, and `finish`
sums them up behind the last block. -/
structure BlockDot (β : Type) where
  elems : Nat
  bytes : Nat
  acts : Nat
  zero : β
  add : List β → List β → β → β
  finish : β → β

section

variable {β : Type}

section

variable (zero : β) (add : List β → List β → β → β) (finish : β → β)

/-- `vec_dot`, on floats. -/
def vecDot (fma : β → β → β → β) : BlockDot β :=
  { elems := 1
    bytes := 1
    acts := 1
    zero := zero
    add := fun w x sum => fma sum (x.headD zero) (w.headD zero)
    finish := finish }

/-- `dot_q8_0_row`. -/
def dotQ8_0Row : BlockDot β := ⟨32, 34, 32, zero, add, finish⟩

/-- `dot_q5_0_row`. -/
def dotQ5_0Row : BlockDot β := ⟨32, 22, 32, zero, add, finish⟩

/-- `dot_q5_1_row`. -/
def dotQ5_1Row : BlockDot β := ⟨32, 24, 32, zero, add, finish⟩

/-- `dot_q2_0_row`. -/
def dotQ2_0Row : BlockDot β := ⟨128, 34, 128, zero, add, finish⟩

/-- `dot_q4k_row_q8k`; the activations are one `TnQ8KActBlock` a block. -/
def dotQ4kRow : BlockDot β := ⟨256, 144, 1, zero, add, finish⟩

/-- The row function for a quantized tensor. -/
def rowDot : GGUFType → Option (BlockDot β)
  | .q8_0 => some (dotQ8_0Row zero add finish)
  | .q5_0 => some (dotQ5_0Row zero add finish)
  | .q5_1 => some (dotQ5_1Row zero add finish)
  | .q2_0 => some (dotQ2_0Row zero add finish)
  | .q4_K => some (dotQ4kRow zero add finish)
  | _ => none

end

/-- The cells `[a, a + len)`. -/
def cells (m : Nat → β) (a len : Nat) : List β := (List.range len).map fun i => m (a + i)

theorem cells_congr {m m' : Nat → β} {a len : Nat} (h : ∀ i < len, m (a + i) = m' (a + i)) :
    cells m a len = cells m' a len :=
  List.map_congr_left fun i hi => h i (List.mem_range.1 hi)

/-- The two ranges share no cell. -/
def Apart (a len b len' : Nat) : Prop := a + len ≤ b ∨ b + len' ≤ a

instance (a len b len' : Nat) : Decidable (Apart a len b len') := inferInstanceAs (Decidable (_ ∨ _))

/-- The arguments of a matrix product: `d` rows of `n` inputs. -/
structure MatmulArgs where
  out : Nat
  x : Nat
  w : Nat
  n : Nat
  d : Nat
deriving DecidableEq, Repr

variable (F : BlockDot β)

def BlockDot.blocks (n : Nat) : Nat := n / F.elems

/-- `row_bytes`. -/
def BlockDot.rowBytes (n : Nat) : Nat := F.blocks n * F.bytes

/-- One block of a row whose weights are at `w`, on the activations at `x`. -/
def BlockDot.block (m : Nat → β) (w x b : Nat) (sum : β) : β :=
  F.add (cells m (w + b * F.bytes) F.bytes) (cells m (x + b * F.acts) F.acts) sum

/-- One step of a row: a block, or the sum of the lanes behind the last one. -/
def BlockDot.step (n : Nat) (m : Nat → β) (w x b : Nat) (sum : β) : β :=
  if b < F.blocks n then F.block m w x b sum else F.finish sum

/-- The output overlaps neither the weights nor the activations. -/
def MatmulArgs.NoAlias (a : MatmulArgs) : Prop :=
  Apart a.out a.d a.x (F.blocks a.n * F.acts) ∧ Apart a.out a.d a.w (a.d * F.rowBytes a.n)

/-- The arguments of a batch: the matrix `e` is at `ws e`, its input at `xs e`, its output at `outs e`. -/
structure BatchArgs where
  outs : Nat → Nat
  xs : Nat → Nat
  ws : Nat → Nat
  n : Nat
  d : Nat
  k : Nat

/-- The product with the matrix `e` of the batch alone. -/
def BatchArgs.single (a : BatchArgs) (e : Nat) : MatmulArgs := ⟨a.outs e, a.xs e, a.ws e, a.n, a.d⟩

/-- The outputs overlap neither each other nor any input of the batch. -/
structure BatchArgs.NoAlias (a : BatchArgs) : Prop where
  outs : ∀ e < a.k, ∀ e' < a.k, e ≠ e' → Apart (a.outs e) a.d (a.outs e') a.d
  xs : ∀ e < a.k, ∀ e' < a.k, Apart (a.outs e) a.d (a.xs e') (F.blocks a.n * F.acts)
  ws : ∀ e < a.k, ∀ e' < a.k, Apart (a.outs e) a.d (a.ws e') (a.d * F.rowBytes a.n)

variable {F}

theorem block_lt {b n size : Nat} (hb : b < n) {i : Nat} (hi : i < size) : b * size + i < n * size := by
  calc b * size + i < b * size + size := Nat.add_lt_add_left hi _
    _ = (b + 1) * size := (Nat.succ_mul b size).symm
    _ ≤ n * size := Nat.mul_le_mul_right size hb

/-- A block reads its row and its activations, nothing else. -/
theorem block_congr {m m' : Nat → β} {w x b n : Nat} (hb : b < F.blocks n)
    (hx : ∀ i < F.blocks n * F.acts, m (x + i) = m' (x + i)) (hw : ∀ i < F.rowBytes n, m (w + i) = m' (w + i)) (sum : β) :
    F.block m w x b sum = F.block m' w x b sum := by
  have hw' : cells m (w + b * F.bytes) F.bytes = cells m' (w + b * F.bytes) F.bytes :=
    cells_congr fun i hi => by rw [Nat.add_assoc]; exact hw _ (block_lt hb hi)
  have hx' : cells m (x + b * F.acts) F.acts = cells m' (x + b * F.acts) F.acts :=
    cells_congr fun i hi => by rw [Nat.add_assoc]; exact hx _ (block_lt hb hi)
  unfold BlockDot.block
  rw [hw', hx']

/-- The first `k` blocks of a row. -/
def BlockDot.row (F : BlockDot β) (m : Nat → β) (w x : Nat) : Nat → β
  | 0 => F.zero
  | b + 1 => F.block m w x b (row F m w x b)

/-- The value of a row. -/
def BlockDot.dot (F : BlockDot β) (n : Nat) (m : Nat → β) (w x : Nat) : β := F.finish (F.row m w x (F.blocks n))

theorem row_congr {m m' : Nat → β} {w x k n : Nat} (hk : k ≤ F.blocks n)
    (hx : ∀ i < F.blocks n * F.acts, m (x + i) = m' (x + i)) (hw : ∀ i < F.rowBytes n, m (w + i) = m' (w + i)) :
    F.row m w x k = F.row m' w x k := by
  induction k with
  | zero => rfl
  | succ b ih => rw [BlockDot.row, BlockDot.row, ih (Nat.le_of_succ_le hk), block_congr (Nat.lt_of_succ_le hk) hx hw]

theorem dot_congr {m m' : Nat → β} {w x n : Nat} (hx : ∀ i < F.blocks n * F.acts, m (x + i) = m' (x + i))
    (hw : ∀ i < F.rowBytes n, m (w + i) = m' (w + i)) : F.dot n m w x = F.dot n m' w x :=
  congrArg F.finish (row_congr (Nat.le_refl _) hx hw)

/-- A step of a row reads its weights and its activations, nothing else. -/
theorem step_congr {m m' : Nat → β} {w x b n : Nat} (hx : ∀ i < F.blocks n * F.acts, m (x + i) = m' (x + i))
    (hw : ∀ i < F.rowBytes n, m (w + i) = m' (w + i)) (sum : β) : F.step n m w x b sum = F.step n m' w x b sum := by
  unfold BlockDot.step
  split
  · next hb => exact block_congr hb hx hw sum
  · rfl

/-- The rows of a tensor lie one behind the other, as the file has its blocks. -/
theorem rowDot_bytes {zero : β} {add : List β → List β → β → β} {finish : β → β} {t : GGUFType}
    (h : rowDot zero add finish t = some F) {n d : Nat} (hn : F.elems ∣ n) :
    d * F.rowBytes n = d * n / ggufBlockElems t * ggufBlockSize t := by
  have hblocks : F.elems = ggufBlockElems t ∧ F.bytes = ggufBlockSize t ∧ 0 < F.elems := by
    cases t
    case q8_0 | q5_0 | q5_1 | q2_0 | q4_K =>
      obtain rfl := Option.some.inj h
      exact ⟨rfl, rfl, Nat.succ_pos _⟩
    all_goals exact (Option.some_ne_none _ h.symm).elim
  obtain ⟨helems, hbytes, hpos⟩ := hblocks
  obtain ⟨q, rfl⟩ := hn
  unfold BlockDot.rowBytes BlockDot.blocks
  rw [← helems, ← hbytes, Nat.mul_div_cancel_left q hpos, Nat.mul_left_comm d F.elems q, Nat.mul_div_cancel_left _ hpos,
    Nat.mul_assoc]

/-! ## The tasks -/

variable (F)

/-- The task of one matrix: `out[i] = dot_row(w + i * row_bytes, x)`. -/
def matmulTask (a : MatmulArgs) (h : a.NoAlias F) : RowKernel β where
  total := a.d
  dest i := a.out + i
  steps _ := F.blocks a.n + 1
  initial := F.zero
  accumulate i := fun b m sum => F.step a.n m (a.w + i * F.rowBytes a.n) a.x b sum
  inj i hi i' hi' he := Nat.add_left_cancel he
  reads i hi _ _ m m' hm := by
    funext sum
    have hout : ∀ j, Apart a.out a.d j 1 → m j = m' j := by
      intro j hj
      refine hm j fun i' hi' he => ?_
      rcases hj with hj | hj <;> omega
    refine step_congr (fun j hj => hout _ ?_) (fun j hj => hout _ ?_) sum
    · rcases h.1 with h1 | h1
      · exact .inl (by omega)
      · exact .inr (by omega)
    · have hlt := block_lt hi hj
      rcases h.2 with h1 | h1
      · exact .inl (by omega)
      · exact .inr (by omega)

theorem row_lt {r d k : Nat} (hr : r < k * d) : r / d < k ∧ r % d < d := by
  have hd : 0 < d := Nat.pos_of_ne_zero (by rintro rfl; exact absurd hr (Nat.not_lt_zero r))
  exact ⟨(Nat.div_lt_iff_lt_mul hd).2 hr, Nat.mod_lt r hd⟩

/-- The batch task: row `r` is row `r % n_out` of matrix `r / n_out`. -/
def matmulBatchTask (a : BatchArgs) (h : a.NoAlias F) : RowKernel β where
  total := a.k * a.d
  dest r := a.outs (r / a.d) + r % a.d
  steps _ := F.blocks a.n + 1
  initial := F.zero
  accumulate r := fun b m sum => F.step a.n m (a.ws (r / a.d) + r % a.d * F.rowBytes a.n) (a.xs (r / a.d)) b sum
  inj r hr r' hr' he := by
    obtain ⟨he1, hi1⟩ := row_lt hr
    obtain ⟨he2, hi2⟩ := row_lt hr'
    by_cases hne : r / a.d = r' / a.d
    · rw [hne] at he
      rw [← Nat.div_add_mod r a.d, ← Nat.div_add_mod r' a.d, hne, Nat.add_left_cancel he]
    · rcases h.outs _ he1 _ he2 hne with h1 | h1 <;> omega
  reads r hr _ _ m m' hm := by
    funext sum
    obtain ⟨he1, hi1⟩ := row_lt hr
    have hout : ∀ j, (∀ e < a.k, Apart (a.outs e) a.d j 1) → m j = m' j := by
      intro j hj
      refine hm j fun r' hr' he => ?_
      obtain ⟨he2, hi2⟩ := row_lt hr'
      rcases hj _ he2 with h1 | h1 <;> omega
    refine step_congr (fun j hj => hout _ fun e he => ?_) (fun j hj => hout _ fun e he => ?_) sum
    · rcases h.xs e he _ he1 with h1 | h1
      · exact .inl (by omega)
      · exact .inr (by omega)
    · have hlt := block_lt hi1 hj
      rcases h.ws e he _ he1 with h1 | h1
      · exact .inl (by omega)
      · exact .inr (by omega)

variable {F}

theorem BatchArgs.NoAlias.single {a : BatchArgs} (h : a.NoAlias F) {e : Nat} (he : e < a.k) :
    (a.single e).NoAlias F :=
  ⟨h.xs e he e he, h.ws e he e he⟩

variable (F) in
/-- `parallel_matmul_*` without a pool. -/
def matmul (a : MatmulArgs) (h : a.NoAlias F) (m : Nat → β) : Nat → β :=
  (matmulTask F a h).loop m a.d

variable (F) in
/-- The matrices of the batch one after another, each with a call of its own. -/
def matmulEach (a : BatchArgs) (h : a.NoAlias F) (m : Nat → β) : (k : Nat) → k ≤ a.k → Nat → β
  | 0, _ => m
  | e + 1, he => matmul F (a.single e) (h.single he) (matmulEach a h m e (Nat.le_of_succ_le he))

/-! ## The batch and the single products -/

theorem matmulTask_rowSum {a : MatmulArgs} (h : a.NoAlias F) (i : Nat) (m : Nat → β) {k : Nat} (hk : k ≤ F.blocks a.n) :
    (matmulTask F a h).rowSum i m k = F.row m (a.w + i * F.rowBytes a.n) a.x k := by
  induction k with
  | zero => rfl
  | succ k ih =>
    rw [RowKernel.rowSum, ih (Nat.le_of_succ_le hk)]
    exact if_pos (Nat.lt_of_succ_le hk)

theorem matmulTask_value {a : MatmulArgs} (h : a.NoAlias F) (i : Nat) (m : Nat → β) :
    (matmulTask F a h).rowSum i m (F.blocks a.n + 1) = F.dot a.n m (a.w + i * F.rowBytes a.n) a.x := by
  rw [RowKernel.rowSum, matmulTask_rowSum h i m (Nat.le_refl _)]
  exact if_neg (Nat.lt_irrefl _)

theorem matmulBatchTask_rowSum {a : BatchArgs} (h : a.NoAlias F) (r : Nat) (m : Nat → β) {k : Nat} (hk : k ≤ F.blocks a.n) :
    (matmulBatchTask F a h).rowSum r m k =
      F.row m (a.ws (r / a.d) + r % a.d * F.rowBytes a.n) (a.xs (r / a.d)) k := by
  induction k with
  | zero => rfl
  | succ k ih =>
    rw [RowKernel.rowSum, ih (Nat.le_of_succ_le hk)]
    exact if_pos (Nat.lt_of_succ_le hk)

theorem matmulBatchTask_value {a : BatchArgs} (h : a.NoAlias F) (r : Nat) (m : Nat → β) :
    (matmulBatchTask F a h).rowSum r m (F.blocks a.n + 1) =
      F.dot a.n m (a.ws (r / a.d) + r % a.d * F.rowBytes a.n) (a.xs (r / a.d)) := by
  rw [RowKernel.rowSum, matmulBatchTask_rowSum h r m (Nat.le_refl _)]
  exact if_neg (Nat.lt_irrefl _)

/-- `matmul` leaves the row products in the output. -/
theorem matmul_out {a : MatmulArgs} (h : a.NoAlias F) (m : Nat → β) {i : Nat} (hi : i < a.d) :
    matmul F a h m (a.out + i) = F.dot a.n m (a.w + i * F.rowBytes a.n) a.x := by
  rw [← matmulTask_value h]
  exact RowKernel.loop_dest hi (Nat.le_refl _) m

/-- `matmul` leaves everything else. -/
theorem matmul_other {a : MatmulArgs} (h : a.NoAlias F) (m : Nat → β) {j : Nat} (hj : ∀ i < a.d, a.out + i ≠ j) :
    matmul F a h m j = m j :=
  RowKernel.loop_other m hj

theorem matmulEach_other {a : BatchArgs} (h : a.NoAlias F) (m : Nat → β) {k : Nat} (hk : k ≤ a.k) {j : Nat}
    (hj : ∀ e < k, ∀ i < a.d, a.outs e + i ≠ j) : matmulEach F a h m k hk j = m j := by
  induction k with
  | zero => rfl
  | succ k ih =>
    rw [matmulEach, matmul_other _ _ (hj k (Nat.lt_succ_self k)), ih _ fun e he => hj e (Nat.lt_succ_of_lt he)]

/-- Every product reads the inputs as they were before the first. -/
theorem matmulEach_out {a : BatchArgs} (h : a.NoAlias F) (m : Nat → β) {k : Nat} (hk : k ≤ a.k) {e i : Nat} (he : e < k)
    (hi : i < a.d) :
    matmulEach F a h m k hk (a.outs e + i) = F.dot a.n m (a.ws e + i * F.rowBytes a.n) (a.xs e) := by
  induction k with
  | zero => exact absurd he (Nat.not_lt_zero e)
  | succ k ih =>
    rw [matmulEach]
    rcases Nat.lt_succ_iff_lt_or_eq.1 he with hlt | rfl
    · have hne : ∀ i' < a.d, a.outs k + i' ≠ a.outs e + i := by
        intro i' hi'
        rcases h.outs k (by omega) e (by omega) (by omega) with h1 | h1 <;> omega
      rw [matmul_other (h.single (Nat.lt_of_succ_le hk)) _ hne, ih _ hlt]
    · have hkeep : ∀ j, (∀ e' < a.k, Apart (a.outs e') a.d j 1) →
          matmulEach F a h m e (Nat.le_of_succ_le hk) j = m j := by
        intro j hj
        refine matmulEach_other h m _ fun e' he' i' hi' heq => ?_
        rcases hj e' (by omega) with h1 | h1 <;> omega
      rw [show a.outs e + i = (a.single e).out + i from rfl, matmul_out (h.single (Nat.lt_of_succ_le hk)) _ hi]
      refine dot_congr (fun j hj => hkeep _ fun e' he' => ?_) fun j hj => hkeep _ fun e' he' => ?_
      · rcases h.xs e' he' e (by omega) with h1 | h1
        · exact .inl (by dsimp only [BatchArgs.single]; omega)
        · exact .inr (by dsimp only [BatchArgs.single] at hj ⊢; omega)
      · have hlt := block_lt hi hj
        rcases h.ws e' he' e (by omega) with h1 | h1
        · exact .inl (by dsimp only [BatchArgs.single]; omega)
        · exact .inr (by dsimp only [BatchArgs.single] at hlt ⊢; omega)

/-- The loop over all rows of a batch leaves what the products one after another leave. -/
theorem batch_loop_eq {a : BatchArgs} (h : a.NoAlias F) (m : Nat → β) :
    (matmulBatchTask F a h).loop m (a.k * a.d) = matmulEach F a h m a.k (Nat.le_refl _) := by
  funext j
  by_cases hj : ∃ e < a.k, ∃ i < a.d, a.outs e + i = j
  · obtain ⟨e, he, i, hi, rfl⟩ := hj
    have hr : e * a.d + i < a.k * a.d := block_lt he hi
    have hdiv : (e * a.d + i) / a.d = e := by
      rw [Nat.mul_comm, Nat.mul_add_div (Nat.zero_lt_of_lt hi), Nat.div_eq_of_lt hi, Nat.add_zero]
    have hmod : (e * a.d + i) % a.d = i := by rw [Nat.mul_comm, Nat.mul_add_mod, Nat.mod_eq_of_lt hi]
    have hdest : (matmulBatchTask F a h).dest (e * a.d + i) = a.outs e + i := by
      change a.outs ((e * a.d + i) / a.d) + (e * a.d + i) % a.d = _
      rw [hdiv, hmod]
    have hvalue := matmulBatchTask_value h (e * a.d + i) m
    rw [hdiv, hmod] at hvalue
    rw [matmulEach_out h m (Nat.le_refl _) he hi, ← hdest, RowKernel.loop_dest hr (Nat.le_refl _)]
    exact hvalue
  · have hother : ∀ e < a.k, ∀ i < a.d, a.outs e + i ≠ j := fun e he i hi heq => hj ⟨e, he, i, hi, heq⟩
    rw [matmulEach_other h m (Nat.le_refl _) hother]
    refine RowKernel.loop_other m fun r hr => ?_
    obtain ⟨he, hi⟩ := row_lt hr
    exact hother _ he _ hi

/-! ## On the pool -/

variable {tasks : Nat → Nat → RowTask Cell β} {w : Nat} {blocking : Bool} {m0 : Cell → β} {s : Computation w Cell β}
  {fn arg : Nat} {es : List (Event Cell β)}

/-- The memory after the return of a dispatch whose rows accumulate and store. -/
theorem dispatch_mem {K : RowKernel β} (hs : (computation tasks w blocking m0).Reachable s) (hidle : s.pool.disp = .idle)
    (htask : tasks fn arg = K.task) (hprog : s.program = .dispatch ⟨fn, arg, K.total⟩ :: es) (j : Nat) :
    s.mem (.mem j) = K.loop (fun j => replay tasks m0 es (.mem j)) K.total j := by
  rw [(reachable_computeOk hs).idle hidle, hprog, replay, htask]
  exact RowKernel.sequential_mem _ j

end

/-- `parallel_matmul_*` with a pool: whatever the number of threads, the way they wait and the
interleaving of their steps, at the return the memory is what the loop without a pool leaves. -/
theorem parallel_matmul_eq {β : Type} (F : BlockDot β) (a : MatmulArgs) (h : a.NoAlias F)
    (tasks : Nat → Nat → RowTask Cell β) (fn arg : Nat) (htask : tasks fn arg = (matmulTask F a h).task) (w : Nat)
    (blocking : Bool) (m0 : Cell → β) (s : Computation w Cell β) (hs : (computation tasks w blocking m0).Reachable s)
    (hidle : s.pool.disp = .idle) (es : List (Event Cell β)) (hprog : s.program = .dispatch ⟨fn, arg, a.d⟩ :: es) (j : Nat) :
    s.mem (.mem j) = matmul F a h (fun j => replay tasks m0 es (.mem j)) j :=
  dispatch_mem hs hidle htask hprog j

/-- Three rows of one input, on natural numbers. -/
def columnArgs : MatmulArgs := ⟨10, 0, 1, 1, 3⟩

def natDot : BlockDot Nat := vecDot 0 id fun sum x w => sum + x * w

theorem columnArgs_noAlias : columnArgs.NoAlias natDot := by
  constructor <;> right <;> decide

def rowMoves : List (Move 1 Cell Nat) :=
  twoThreadMoves Cell Nat
    ([some worker, none, some worker, none] ++ List.replicate 2 (some worker) ++ [none, none] ++
      List.replicate 4 (some worker) ++ [none] ++ List.replicate 2 (some worker))

def columnMemory : Cell → Nat
  | .mem a => [7, 2, 3, 5].getD a 0
  | .sum _ => 0

def columnSystem : System (Computation 1 Cell Nat) (Move 1 Cell Nat) :=
  computation (fun _ _ => (matmulTask natDot columnArgs columnArgs_noAlias).task) 1 true columnMemory

theorem parallel_matmul_eq_column :
    ∃ s, columnSystem.run columnSystem.init rowMoves = some s ∧
      [10, 11, 12, 13].map (fun j => s.mem (.mem j)) = [14, 21, 35, 0] ∧
      s.mem (.mem 12) = matmul natDot columnArgs columnArgs_noAlias (fun j => columnMemory (.mem j)) 12 := by
  have hrun : ∃ s, columnSystem.run columnSystem.init rowMoves = some s ∧ s.pool.disp = .idle ∧
      s.program = [.dispatch ⟨7, 9, columnArgs.d⟩] ∧
      [10, 11, 12, 13].map (fun j => s.mem (.mem j)) = [14, 21, 35, 0] := ⟨_, rfl, rfl, rfl, rfl⟩
  obtain ⟨s, hs, hidle, hprog, hmem⟩ := hrun
  exact ⟨s, hs, hmem, parallel_matmul_eq natDot columnArgs columnArgs_noAlias _ 7 9 rfl 1 true columnMemory s
    (System.Reachable.init.run hs) hidle [] hprog 12⟩

/-- `parallel_matmul_*_batch` with a pool: one dispatch over the rows of all matrices leaves what the
single products one after another, without a pool, leave. -/
theorem parallel_matmul_batch_eq {β : Type} (F : BlockDot β) (a : BatchArgs) (h : a.NoAlias F)
    (tasks : Nat → Nat → RowTask Cell β) (fn arg : Nat) (htask : tasks fn arg = (matmulBatchTask F a h).task) (w : Nat)
    (blocking : Bool) (m0 : Cell → β) (s : Computation w Cell β) (hs : (computation tasks w blocking m0).Reachable s)
    (hidle : s.pool.disp = .idle) (es : List (Event Cell β)) (hprog : s.program = .dispatch ⟨fn, arg, a.k * a.d⟩ :: es)
    (j : Nat) :
    s.mem (.mem j) = matmulEach F a h (fun j => replay tasks m0 es (.mem j)) a.k (Nat.le_refl _) j := by
  rw [← batch_loop_eq h]
  exact dispatch_mem hs hidle htask hprog j

/-- Three experts with one row each. -/
def expertArgs : BatchArgs := ⟨fun e => 10 + e, fun e => e, fun e => 4 + e, 1, 1, 3⟩

theorem expertArgs_noAlias : expertArgs.NoAlias natDot where
  outs e he e' he' hne := by
    dsimp only [expertArgs]
    unfold Apart
    omega
  xs e he e' he' := .inr (by
    change e' + 1 * 1 ≤ 10 + e
    change e' < 3 at he'
    omega)
  ws e he e' he' := .inr (by
    change 4 + e' + 1 * (1 * 1) ≤ 10 + e
    change e' < 3 at he'
    omega)

def expertMemory : Cell → Nat
  | .mem a => [7, 11, 13, 0, 2, 3, 5].getD a 0
  | .sum _ => 0

def expertSystem : System (Computation 1 Cell Nat) (Move 1 Cell Nat) :=
  computation (fun _ _ => (matmulBatchTask natDot expertArgs expertArgs_noAlias).task) 1 true expertMemory

theorem parallel_matmul_batch_eq_experts :
    ∃ s, expertSystem.run expertSystem.init rowMoves = some s ∧ [10, 11, 12].map (fun j => s.mem (.mem j)) = [14, 33, 65] ∧
      s.mem (.mem 11) =
        matmulEach natDot expertArgs expertArgs_noAlias (fun j => expertMemory (.mem j)) 3 (Nat.le_refl _) 11 := by
  have hrun : ∃ s, expertSystem.run expertSystem.init rowMoves = some s ∧ s.pool.disp = .idle ∧
      s.program = [.dispatch ⟨7, 9, expertArgs.k * expertArgs.d⟩] ∧
      [10, 11, 12].map (fun j => s.mem (.mem j)) = [14, 33, 65] := ⟨_, rfl, rfl, rfl, rfl⟩
  obtain ⟨s, hs, hidle, hprog, hmem⟩ := hrun
  exact ⟨s, hs, hmem, parallel_matmul_batch_eq natDot expertArgs expertArgs_noAlias _ 7 9 rfl 1 true expertMemory s
    (System.Reachable.init.run hs) hidle [] hprog 11⟩

end BitForge.Pool
