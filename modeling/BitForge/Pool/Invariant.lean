/-
The invariant of the thread pool. To every thread belongs a stage of the running dispatch: a
worker is due until it claims an index, then holds it, runs its slice, and is done once it has
decremented `spin_remaining`; the dispatching thread holds the index `w` from the start. The
stages are not part of the pool: the invariant says that some assignment of stages explains the
program counters, the counters and the slice calls made so far.
-/
import BitForge.Lib.Tally
import BitForge.Pool.Machine

namespace BitForge.Pool

open BitForge.Lib

inductive Stage
  | due
  | claimed (idx : Nat)
  | running (idx : Nat)
  | ran (idx : Nat)
  | done (idx : Nat)
deriving DecidableEq, Repr

namespace Stage

def idx : Stage → Option Nat
  | due => none
  | claimed k | running k | ran k | done k => some k

/-- The index of a slice that was passed to the task function (or was empty). -/
def started : Stage → Option Nat
  | due | claimed _ => none
  | running k | ran k | done k => some k

def finished : Stage → Option Nat
  | due | claimed _ | running _ => none
  | ran k | done k => some k

def isClaimed : Stage → Bool
  | due => false
  | _ => true

def isOpen : Stage → Bool
  | done _ => false
  | _ => true

theorem idx_of_started {st : Stage} {k : Nat} (h : st.started = some k) : st.idx = some k := by
  cases st <;> first | exact h | cases h

end Stage

/-- Whether the epoch of the running dispatch is published. -/
inductive Phase
  | idle
  | pre
  | live
deriving DecidableEq, Repr

namespace DispPc

def phase : DispPc → Phase
  | idle => .idle
  | setFn | setArg | setTotal | setClaimed | setRemaining | incEpoch => .pre
  | _ => .live

/-- How many of the five shared variables of the dispatch are written. -/
def written : DispPc → Nat
  | idle | setFn => 0
  | setArg => 1
  | setTotal => 2
  | setClaimed => 3
  | setRemaining => 4
  | _ => 5

/-- The stage of the dispatching thread, which holds the index `w`. -/
def stage (w : Nat) : DispPc → Stage
  | setFn | setArg | setTotal | setClaimed | setRemaining | incEpoch | bcastLock | broadcast | bcastUnlock | slice =>
    .claimed w
  | running => .running w
  | _ => .ran w

end DispPc

/-- A worker outside phases 2 and 3. -/
def Resting (ph : Phase) (epoch last : Nat) (st : Stage) : Prop :=
  match ph with
  | .idle => last = epoch ∧ ∃ k, st = .done k
  | .pre => last = epoch ∧ st = .due
  | .live => (last = epoch ∧ ∃ k, st = .done k) ∨ (last ≠ epoch ∧ st = .due)

/-- The stage explains the program counter and the locals of a worker. -/
def WorkerOk (ph : Phase) (c : Call) (epoch last : Nat) (st : Stage) : WorkerPc → Prop
  | .reload => ph = .live ∧ last ≠ epoch ∧ st = .due
  | .unlock | .claim => ph = .live ∧ last = epoch ∧ st = .due
  | .readTotal k => ph = .live ∧ last = epoch ∧ st = .claimed k
  | .readFn k total => ph = .live ∧ last = epoch ∧ st = .claimed k ∧ total = c.total
  | .readArg k total fn => ph = .live ∧ last = epoch ∧ st = .claimed k ∧ total = c.total ∧ fn = c.fn
  | .slice k task => ph = .live ∧ last = epoch ∧ st = .claimed k ∧ task = c
  | .running k task => ph = .live ∧ last = epoch ∧ st = .running k ∧ task = c
  | .decrement => ph = .live ∧ last = epoch ∧ ∃ k, st = .ran k
  | _ => Resting ph epoch last st

theorem WorkerOk.not_live {ph : Phase} {c : Call} {epoch last : Nat} {st : Stage} {pc : WorkerPc}
    (h : WorkerOk ph c epoch last st pc) (hp : ph ≠ .live) : Resting ph epoch last st := by
  cases pc <;> first | exact h | exact absurd h.1 hp

/-- A done worker is in its waiting loop. -/
theorem WorkerOk.done_idle {c c' : Call} {epoch last k : Nat} {pc : WorkerPc}
    (h : WorkerOk .live c epoch last (.done k) pc) : WorkerOk .idle c' epoch last (.done k) pc := by
  cases pc with
  | reload | unlock | claim | readTotal => cases h.2.2
  | decrement => obtain ⟨-, -, k', hk'⟩ := h; cases hk'
  | readFn | readArg | slice | running => cases h.2.2.1
  | _ =>
    rcases h with ⟨h, -⟩ | ⟨-, h⟩
    · exact ⟨h, k, rfl⟩
    · cases h

/-- A resting worker may be at every program counter of its waiting loop. -/
theorem WorkerOk.resting {ph ph' : Phase} {c c' : Call} {epoch epoch' last : Nat} {st st' : Stage} {pc : WorkerPc}
    (h : WorkerOk ph c epoch last st pc) (hp : ph ≠ .live) (h' : Resting ph' epoch' last st') :
    WorkerOk ph' c' epoch' last st' pc := by
  cases pc <;> first | exact h' | exact absurd h.1 hp

/-! ## The record of slice calls -/

section

variable {w : Nat}

/-- The slice `k` is not empty. -/
def Busy (c : Call) (w k : Nat) : Prop := (sliceRange c.total (w + 1) k).1 < c.total

/-- The calls made are those of the non-empty slices whose threads have started them. -/
structure LogOk (c : Call) (st : Option (Fin w) → Stage) (started finished : List (SliceCall w)) : Prop where
  started_iff : ∀ r, r ∈ started ↔ ∃ t k, (st t).started = some k ∧ Busy c w k ∧ r = sliceCall t k c
  finished_iff : ∀ r, r ∈ finished ↔ ∃ t k, (st t).finished = some k ∧ Busy c w k ∧ r = sliceCall t k c
  nodup : started.Nodup
  busy : ∀ t k, st t = .running k → Busy c w k

namespace LogOk

variable {c : Call} {st : Option (Fin w) → Stage} {started finished : List (SliceCall w)}

theorem congr (h : LogOk c st started finished) {st' : Option (Fin w) → Stage}
    (hs : ∀ t, (st' t).started = (st t).started) (hf : ∀ t, (st' t).finished = (st t).finished)
    (hr : ∀ t k, st' t = .running k → st t = .running k) : LogOk c st' started finished where
  started_iff r := by simp only [hs]; exact h.started_iff r
  finished_iff r := by simp only [hf]; exact h.finished_iff r
  nodup := h.nodup
  busy t k hk := h.busy t k (hr t k hk)

/-- A change of one stage that neither starts nor finishes a slice. -/
theorem quiet (h : LogOk c st started finished) {t : Option (Fin w)} {x : Stage}
    (hs : x.started = (st t).started) (hf : x.finished = (st t).finished) (hr : ∀ k, x = .running k → st t = .running k) :
    LogOk c (Function.update st t x) started finished := by
  refine h.congr (fun u => ?_) (fun u => ?_) fun u k hk => ?_ <;> by_cases hu : u = t
  · subst hu; rw [Function.update_self, hs]
  · rw [Function.update_of_ne hu]
  · subst hu; rw [Function.update_self, hf]
  · rw [Function.update_of_ne hu]
  · subst hu; rw [Function.update_self] at hk; exact hr k hk
  · rwa [Function.update_of_ne hu] at hk

theorem not_mem_of_claimed (h : LogOk c st started finished) {t : Option (Fin w)} {k : Nat} (ht : st t = .claimed k) :
    sliceCall t k c ∉ started := by
  intro hmem
  obtain ⟨u, j, hu, -, he⟩ := (h.started_iff _).1 hmem
  have htu : t = u := congrArg SliceCall.thread he
  rw [← htu, ht] at hu
  cases hu

/-- Membership after one thread has moved on with its non-empty slice `k`. -/
theorem mem_cons_iff {f : Stage → Option Nat} {t : Option (Fin w)} {k : Nat} {x : Stage} {l : List (SliceCall w)}
    (h : ∀ r, r ∈ l ↔ ∃ u j, f (st u) = some j ∧ Busy c w j ∧ r = sliceCall u j c)
    (hold : f (st t) = none) (hnew : f x = some k) (hb : Busy c w k) (r : SliceCall w) :
    r ∈ sliceCall t k c :: l ↔
      ∃ u j, f (Function.update st t x u) = some j ∧ Busy c w j ∧ r = sliceCall u j c := by
  rw [List.mem_cons, h]
  constructor
  · rintro (rfl | ⟨u, j, hu, hj, rfl⟩)
    · exact ⟨t, k, by rw [Function.update_self, hnew], hb, rfl⟩
    · have hut : u ≠ t := by rintro rfl; rw [hold] at hu; cases hu
      exact ⟨u, j, by rw [Function.update_of_ne hut, hu], hj, rfl⟩
  · rintro ⟨u, j, hu, hj, rfl⟩
    by_cases hut : u = t
    · subst hut
      rw [Function.update_self, hnew] at hu
      cases hu
      exact .inl rfl
    · rw [Function.update_of_ne hut] at hu
      exact .inr ⟨u, j, hu, hj, rfl⟩

/-- Membership when a thread moves on with an empty slice, or without passing `f`. -/
theorem mem_same_iff {f : Stage → Option Nat} {t : Option (Fin w)} {x : Stage} {l : List (SliceCall w)}
    (h : ∀ r, r ∈ l ↔ ∃ u j, f (st u) = some j ∧ Busy c w j ∧ r = sliceCall u j c)
    (hold : ∀ k, f (st t) = some k → ¬ Busy c w k) (hnew : ∀ k, f x = some k → ¬ Busy c w k) (r : SliceCall w) :
    r ∈ l ↔ ∃ u j, f (Function.update st t x u) = some j ∧ Busy c w j ∧ r = sliceCall u j c := by
  rw [h]
  constructor <;> rintro ⟨u, j, hu, hj, rfl⟩
  · have hut : u ≠ t := by rintro rfl; exact hold j hu hj
    exact ⟨u, j, by rw [Function.update_of_ne hut, hu], hj, rfl⟩
  · have hut : u ≠ t := by rintro rfl; rw [Function.update_self] at hu; exact hnew j hu hj
    exact ⟨u, j, by rwa [Function.update_of_ne hut] at hu, hj, rfl⟩

theorem start (h : LogOk c st started finished) {t : Option (Fin w)} {k : Nat} (ht : st t = .claimed k)
    (hb : Busy c w k) : LogOk c (Function.update st t (.running k)) (sliceCall t k c :: started) finished where
  started_iff := mem_cons_iff h.started_iff (by rw [ht]; rfl) rfl hb
  finished_iff := mem_same_iff h.finished_iff (by rw [ht]; nofun) nofun
  nodup := List.nodup_cons.2 ⟨h.not_mem_of_claimed ht, h.nodup⟩
  busy u j hj := by
    by_cases hut : u = t
    · subst hut; rw [Function.update_self] at hj; cases hj; exact hb
    · rw [Function.update_of_ne hut] at hj; exact h.busy u j hj

theorem skip (h : LogOk c st started finished) {t : Option (Fin w)} {k : Nat} (ht : st t = .claimed k)
    (hb : ¬ Busy c w k) : LogOk c (Function.update st t (.ran k)) started finished where
  started_iff := mem_same_iff h.started_iff (by rw [ht]; nofun) (by rintro j ⟨⟩; exact hb)
  finished_iff := mem_same_iff h.finished_iff (by rw [ht]; nofun) (by rintro j ⟨⟩; exact hb)
  nodup := h.nodup
  busy u j hj := by
    by_cases hut : u = t
    · subst hut; rw [Function.update_self] at hj; cases hj
    · rw [Function.update_of_ne hut] at hj; exact h.busy u j hj

theorem finish (h : LogOk c st started finished) {t : Option (Fin w)} {k : Nat} (ht : st t = .running k) :
    LogOk c (Function.update st t (.ran k)) started (sliceCall t k c :: finished) where
  started_iff r := by
    rw [h.started_iff]
    have hs : ∀ u, (Function.update st t (.ran k) u).started = (st u).started := by
      intro u
      by_cases hut : u = t
      · subst hut; rw [Function.update_self, ht]; rfl
      · rw [Function.update_of_ne hut]
    simp only [hs]
  finished_iff := mem_cons_iff h.finished_iff (by rw [ht]; rfl) rfl (h.busy t k ht)
  nodup := h.nodup
  busy u j hj := by
    by_cases hut : u = t
    · subst hut; rw [Function.update_self] at hj; cases hj
    · rw [Function.update_of_ne hut] at hj; exact h.busy u j hj

end LogOk

/-! ## The invariant -/

/-- The stages of the workers. -/
def ofWorkers (st : Option (Fin w) → Stage) : Fin w → Stage := fun i => st (some i)

@[simp] theorem ofWorkers_update_some (st : Option (Fin w) → Stage) (i : Fin w) (x : Stage) :
    ofWorkers (Function.update st (some i) x) = Function.update (ofWorkers st) i x := by
  funext j
  unfold ofWorkers
  by_cases hj : j = i
  · subst hj; rw [Function.update_self, Function.update_self]
  · rw [Function.update_of_ne hj, Function.update_of_ne (by simpa using hj)]

@[simp] theorem ofWorkers_update_none (st : Option (Fin w) → Stage) (x : Stage) :
    ofWorkers (Function.update st none x) = ofWorkers st := by
  funext j
  unfold ofWorkers
  rw [Function.update_of_ne (by simp)]

structure Inv (s : ThreadPool w) (st : Option (Fin w) → Stage) : Prop where
  call : s.disp ≠ .idle → s.call.fn ≠ 0
  disp : st none = s.disp.stage w
  workers : ∀ i, WorkerOk s.disp.phase s.call s.spinEpoch (s.workers i).lastEpoch (st (some i)) (s.workers i).pc
  fnSet : 1 ≤ s.disp.written → s.taskFn = s.call.fn
  argSet : 2 ≤ s.disp.written → s.taskArg = s.call.arg
  totalSet : 3 ≤ s.disp.written → s.taskTotal = s.call.total
  claimedSet : 4 ≤ s.disp.written → s.spinClaimed = tally Stage.isClaimed (ofWorkers st)
  idx_claimed : 4 ≤ s.disp.written → ∀ i k, (st (some i)).idx = some k → k < s.spinClaimed
  remainingSet : 5 ≤ s.disp.written → s.spinRemaining = tally Stage.isOpen (ofWorkers st)
  idx_lt : ∀ i k, (st (some i)).idx = some k → k < w
  idx_inj : ∀ i j k, (st (some i)).idx = some k → (st (some j)).idx = some k → i = j
  settled : s.disp = .unlock ∨ s.disp = .ret → ∀ i, ∃ k, st (some i) = .done k
  log : LogOk s.call st s.started s.finished

/-- At the start nothing has been dispatched. -/
theorem inv_init (w : Nat) :
    Inv (threadpoolCreate w) (fun t => match t with | none => .ran w | some i => .done i.val) where
  call h := absurd rfl h
  disp := rfl
  workers i := ⟨rfl, i.val, rfl⟩
  fnSet h := absurd h (Nat.not_succ_le_zero _)
  argSet h := absurd h (Nat.not_succ_le_zero _)
  totalSet h := absurd h (Nat.not_succ_le_zero _)
  claimedSet h := absurd h (Nat.not_succ_le_zero _)
  idx_claimed h := absurd h (Nat.not_succ_le_zero _)
  remainingSet h := absurd h (Nat.not_succ_le_zero _)
  idx_lt i k h := by cases h; exact i.isLt
  idx_inj i j k hi hj := by cases hi; exact Fin.ext (Option.some.inj hj).symm
  settled h := by rcases h with h | h <;> cases h
  log :=
    { started_iff := fun r => ⟨nofun, fun ⟨_, _, _, hb, _⟩ => absurd hb (Nat.not_lt_zero _)⟩
      finished_iff := fun r => ⟨nofun, fun ⟨_, _, _, hb, _⟩ => absurd hb (Nat.not_lt_zero _)⟩
      nodup := List.nodup_nil
      busy := fun t k h => by cases t <;> cases h }

end

end BitForge.Pool
