/-
The thread pool of `threading/thread_pool.c` as a transition system: the dispatching thread in
`threadpool_dispatch`, `w = n - 1` workers in `worker_entry`, the mutex and the two condition
variables. Every access to a shared variable is one step, the steps of the threads interleave in
any order, and a condition wait may end spuriously.

The pool is alive throughout (`shutdown` is false). The started and finished slice calls and the
returned dispatches are recorded to be spoken about; no step reads them.
-/
import BitForge.Lib.Run
import BitForge.Lib.Chunks
import Mathlib.Logic.Function.Basic

namespace BitForge.Pool

open BitForge.Lib

/-- `SPIN_LIMIT`. -/
def spinLimit : Nat := 40000

/-- The row range `[start, end)` of the slice `idx`. -/
def sliceRange (total nthreads idx : Nat) : Nat × Nat :=
  let chunk := total / nthreads
  let remainder := total % nthreads
  if idx < remainder then
    let start := idx * (chunk + 1)
    (start, start + chunk + 1)
  else
    let start := remainder * (chunk + 1) + (idx - remainder) * chunk
    (start, start + chunk)

/-- The arguments of `threadpool_dispatch`; pointers are addresses, `0` is `NULL`. -/
structure Call where
  fn : Nat
  arg : Nat
  total : Nat
deriving DecidableEq, Repr

/-- A call `fn(arg, idx, start, end)` made by a worker, or by the dispatching thread (`none`). -/
structure SliceCall (w : Nat) where
  thread : Option (Fin w)
  fn : Nat
  arg : Nat
  idx : Nat
  start : Nat
  stop : Nat
deriving DecidableEq, Repr

def sliceCall {w : Nat} (thread : Option (Fin w)) (idx : Nat) (c : Call) : SliceCall w :=
  { thread := thread
    fn := c.fn
    arg := c.arg
    idx := idx
    start := (sliceRange c.total (w + 1) idx).1
    stop := (sliceRange c.total (w + 1) idx).2 }

/-- Where a worker is in `worker_entry`, with its locals. -/
inductive WorkerPc
  | top
  | spin (spins : Nat)
  | lock
  | check                     -- the loop condition, holding the mutex
  | asleep                    -- in `pthread_cond_wait(&cond_work)`
  | woken                     -- leaving it, without the mutex
  | reload                    -- `last_epoch = spin_epoch`
  | unlock
  | claim
  | readTotal (idx : Nat)
  | readFn (idx total : Nat)
  | readArg (idx total fn : Nat)
  | slice (idx : Nat) (task : Call)
  | running (idx : Nat) (task : Call)
  | decrement
  | sigLock
  | signal
  | sigUnlock
deriving DecidableEq, Repr

/-- Where the dispatching thread is in `threadpool_dispatch`. -/
inductive DispPc
  | idle
  | setFn
  | setArg
  | setTotal
  | setClaimed
  | setRemaining
  | incEpoch
  | bcastLock
  | broadcast
  | bcastUnlock
  | slice
  | running
  | spin (spins : Nat)
  | lock
  | check
  | asleep                    -- in `pthread_cond_wait(&cond_done)`
  | woken
  | unlock
  | ret
deriving DecidableEq, Repr

structure Worker where
  pc : WorkerPc
  lastEpoch : Nat
deriving DecidableEq, Repr

/-- A dispatch that has returned, with the slice calls started and finished since its begin. -/
structure Returned (w : Nat) where
  call : Call
  started : List (SliceCall w)
  finished : List (SliceCall w)

/-- `ThreadPool`, the threads, and the record of slice calls. -/
structure ThreadPool (w : Nat) where
  spinEpoch : Nat
  spinClaimed : Nat
  spinRemaining : Int
  taskFn : Nat
  taskArg : Nat
  taskTotal : Nat
  mutex : Option (Option (Fin w))
  workers : Fin w → Worker
  disp : DispPc
  call : Call
  started : List (SliceCall w)
  finished : List (SliceCall w)
  past : List (Returned w)

/-- `threadpool_create`. -/
def threadpoolCreate (w : Nat) : ThreadPool w :=
  { spinEpoch := 0
    spinClaimed := 0
    spinRemaining := 0
    taskFn := 0
    taskArg := 0
    taskTotal := 0
    mutex := none
    workers := fun _ => ⟨.top, 0⟩
    disp := .idle
    call := ⟨0, 0, 0⟩
    started := []
    finished := []
    past := [] }

section

variable {w : Nat}

def ThreadPool.setWorker (s : ThreadPool w) (i : Fin w) (wk : Worker) : ThreadPool w :=
  { s with workers := Function.update s.workers i wk }

/-- The worker `i` goes to `pc`. -/
def ThreadPool.goto (s : ThreadPool w) (i : Fin w) (pc : WorkerPc) : ThreadPool w :=
  s.setWorker i { s.workers i with pc := pc }

/-- One step of the worker `i` in `worker_entry`. -/
def workerStep (blocking : Bool) (s : ThreadPool w) (i : Fin w) : Option (ThreadPool w) :=
  let lastEpoch := (s.workers i).lastEpoch
  match (s.workers i).pc with
  -- phase 1: wait for a new dispatch
  | .top => some (s.goto i (if blocking then .lock else .spin 0))
  | .spin spins =>
    if s.spinEpoch ≠ lastEpoch then some (s.setWorker i ⟨.claim, s.spinEpoch⟩)
    else if spins + 1 < spinLimit then some (s.goto i (.spin (spins + 1)))
    else some (s.goto i .lock)
  | .lock => if s.mutex = none then some ({ s with mutex := some (some i) }.goto i .check) else none
  | .check =>
    if s.spinEpoch = lastEpoch then some ({ s with mutex := none }.goto i .asleep) else some (s.goto i .reload)
  | .asleep => none
  | .woken => if s.mutex = none then some ({ s with mutex := some (some i) }.goto i .check) else none
  | .reload => some (s.setWorker i ⟨.unlock, s.spinEpoch⟩)
  | .unlock => some ({ s with mutex := none }.goto i .claim)
  -- phase 2: claim a slice and read the task
  | .claim => some ({ s with spinClaimed := s.spinClaimed + 1 }.goto i (.readTotal s.spinClaimed))
  | .readTotal idx => some (s.goto i (.readFn idx s.taskTotal))
  | .readFn idx total => some (s.goto i (.readArg idx total s.taskFn))
  | .readArg idx total fn => some (s.goto i (.slice idx ⟨fn, s.taskArg, total⟩))
  -- phase 3: execute
  | .slice idx task =>
    if (sliceRange task.total (w + 1) idx).1 < task.total ∧ task.fn ≠ 0 then
      some ({ s with started := sliceCall (some i) idx task :: s.started }.goto i (.running idx task))
    else some (s.goto i .decrement)
  | .running idx task =>
    some ({ s with finished := sliceCall (some i) idx task :: s.finished }.goto i .decrement)
  -- phase 4: signal completion
  | .decrement =>
    some ({ s with spinRemaining := s.spinRemaining - 1 }.goto i (if s.spinRemaining = 1 then .sigLock else .top))
  | .sigLock => if s.mutex = none then some ({ s with mutex := some (some i) }.goto i .signal) else none
  | .signal => some ({ s with disp := if s.disp = DispPc.asleep then .woken else s.disp }.goto i .sigUnlock)
  | .sigUnlock => some ({ s with mutex := none }.goto i .top)

/-- What the dispatching thread does after its own slice. -/
def afterSlice (w : Nat) (blocking : Bool) : DispPc :=
  if w = 0 then .ret else if blocking then .lock else .spin 0

/-- `pthread_cond_broadcast(&cond_work)`. -/
def wakeAll (workers : Fin w → Worker) : Fin w → Worker := fun i =>
  if (workers i).pc = .asleep then { workers i with pc := .woken } else workers i

/-- One step of the dispatching thread inside `threadpool_dispatch`. -/
def dispatchStep (blocking : Bool) (s : ThreadPool w) : Option (ThreadPool w) :=
  match s.disp with
  | .idle => none
  | .setFn => some { s with taskFn := s.call.fn, disp := .setArg }
  | .setArg => some { s with taskArg := s.call.arg, disp := .setTotal }
  | .setTotal => some { s with taskTotal := s.call.total, disp := .setClaimed }
  | .setClaimed => some { s with spinClaimed := 0, disp := .setRemaining }
  | .setRemaining => some { s with spinRemaining := w, disp := if w = 0 then .slice else .incEpoch }
  | .incEpoch => some { s with spinEpoch := (s.spinEpoch + 1) % 2 ^ 32, disp := .bcastLock }
  | .bcastLock => if s.mutex = none then some { s with mutex := some none, disp := .broadcast } else none
  | .broadcast => some { s with workers := wakeAll s.workers, disp := .bcastUnlock }
  | .bcastUnlock => some { s with mutex := none, disp := .slice }
  | .slice =>
    if (sliceRange s.call.total (w + 1) w).1 < s.call.total then
      some { s with started := sliceCall none w s.call :: s.started, disp := .running }
    else some { s with disp := afterSlice w blocking }
  | .running => some { s with finished := sliceCall none w s.call :: s.finished, disp := afterSlice w blocking }
  | .spin spins =>
    if 0 < s.spinRemaining then
      if spins + 1 < spinLimit then some { s with disp := .spin (spins + 1) } else some { s with disp := .lock }
    else some { s with disp := .ret }
  | .lock => if s.mutex = none then some { s with mutex := some none, disp := .check } else none
  | .check =>
    if 0 < s.spinRemaining then some { s with mutex := none, disp := .asleep } else some { s with disp := .unlock }
  | .asleep => none
  | .woken => if s.mutex = none then some { s with mutex := some none, disp := .check } else none
  | .unlock => some { s with mutex := none, disp := .ret }
  | .ret => some { s with past := ⟨s.call, s.started, s.finished⟩ :: s.past, disp := .idle }

/-- The next dispatch begins; without a function or work the call returns at once. -/
def beginStep (s : ThreadPool w) (c : Call) : Option (ThreadPool w) :=
  if s.disp = .idle then
    if c.fn = 0 ∨ c.total = 0 then some s
    else some { s with call := c, started := [], finished := [], disp := .setFn }
  else none

end

inductive Action (w : Nat)
  | dispatch (c : Call)
  | disp
  | work (i : Fin w)
  | spuriousDisp
  | spuriousWork (i : Fin w)
deriving DecidableEq, Repr

def poolStep {w : Nat} (blocking : Bool) (s : ThreadPool w) : Action w → Option (ThreadPool w)
  | .dispatch c => beginStep s c
  | .disp => dispatchStep blocking s
  | .work i => workerStep blocking s i
  | .spuriousDisp => if s.disp = .asleep then some { s with disp := .woken } else none
  | .spuriousWork i => if (s.workers i).pc = .asleep then some (s.goto i .woken) else none

/-- The pool with `w + 1` threads; `blocking` is `use_blocking_wait`. -/
def threadPool (w : Nat) (blocking : Bool) : System (ThreadPool w) (Action w) :=
  { init := threadpoolCreate w
    step := poolStep blocking }

/-! ## Slices -/

theorem sliceRange_eq (total nthreads idx : Nat) :
    sliceRange total nthreads idx = (bound total nthreads idx, bound total nthreads (idx + 1)) := by
  unfold sliceRange bound
  dsimp only
  split
  · rename_i h
    rw [min_eq_left h.le, min_eq_left (show idx + 1 ≤ total % nthreads from h), Nat.mul_succ, Nat.succ_mul]
    congr 1
    omega
  · rename_i h
    have hd : idx = total % nthreads + (idx - total % nthreads) := by omega
    have hmul : idx * (total / nthreads) =
        total % nthreads * (total / nthreads) + (idx - total % nthreads) * (total / nthreads) := by
      rw [← Nat.add_mul, ← hd]
    rw [min_eq_right (by omega), min_eq_right (by omega), Nat.mul_succ, Nat.succ_mul, hmul]
    congr 1 <;> omega

end BitForge.Pool
