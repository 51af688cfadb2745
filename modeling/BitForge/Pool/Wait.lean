/-
Waiting and waking: who holds the mutex, and which threads may sleep. A worker that has missed
the published epoch sleeps only until the broadcast, and the dispatching thread sleeps only
while a worker has still to decrement `spin_remaining` or to signal `cond_done`.
-/
import BitForge.Pool.Steps

namespace BitForge.Pool

open BitForge.Lib

def WorkerPc.holds : WorkerPc → Bool
  | check | reload | unlock | signal | sigUnlock => true
  | _ => false

def DispPc.holds : DispPc → Bool
  | broadcast | bcastUnlock | check | unlock => true
  | _ => false

section

variable {w : Nat} {s s' : ThreadPool w}

/-- What a step of the thread `t`, from holding the mutex or not (`b`) to `b'`, does to the mutex. -/
def MutexStep (m m' : Option (Option (Fin w))) (t : Option (Fin w)) (b b' : Bool) : Prop :=
  (m' = m ∧ b' = b) ∨ (m = none ∧ m' = some t ∧ b' = true) ∨ (b = true ∧ m' = none ∧ b' = false)

/-! ## What a step can do -/

/-- What a step of the worker `i` can do to the variables of the wait protocol. -/
structure WorkerFrame (s s' : ThreadPool w) (i : Fin w) : Prop where
  others : ∀ j, j ≠ i → s'.workers j = s.workers j
  epoch : s'.spinEpoch = s.spinEpoch
  past : s'.past = s.past
  disp : s'.disp = s.disp ∨ (s.disp = .asleep ∧ s'.disp = .woken)
  asleep : (s'.workers i).pc = .asleep → (s'.workers i).lastEpoch = s.spinEpoch
  sigLock : (s.workers i).pc = .sigLock → (s'.workers i).pc = .signal
  signal : (s.workers i).pc = .signal → s'.disp ≠ .asleep
  remaining : s'.spinRemaining = s.spinRemaining ∨
    (s'.spinRemaining = s.spinRemaining - 1 ∧ (s.spinRemaining = 1 → (s'.workers i).pc = .sigLock))
  mutex : MutexStep s.mutex s'.mutex (some i) (s.workers i).pc.holds (s'.workers i).pc.holds

theorem workerStep_frame {blocking : Bool} {i : Fin w} (h : workerStep blocking s i = some s') : WorkerFrame s s' i := by
  unfold workerStep at h
  cases hpc : (s.workers i).pc with
  | asleep => simp only [hpc] at h; cases h
  | spin =>
    simp only [hpc] at h
    split_ifs at h <;> cases h <;>
      constructor <;> simp +contextual [ThreadPool.goto, ThreadPool.setWorker, MutexStep, hpc, WorkerPc.holds]
  | top =>
    simp only [hpc] at h
    cases h
    cases blocking <;>
      constructor <;> simp +contextual [ThreadPool.goto, ThreadPool.setWorker, MutexStep, hpc, WorkerPc.holds]
  | lock | woken | sigLock =>
    simp only [hpc] at h
    split_ifs at h with hm
    cases h
    constructor <;> simp +contextual [ThreadPool.goto, ThreadPool.setWorker, MutexStep, hpc, WorkerPc.holds, hm]
  | check =>
    simp only [hpc] at h
    split_ifs at h with he <;> cases h <;>
      constructor <;> simp +contextual [ThreadPool.goto, ThreadPool.setWorker, MutexStep, hpc, WorkerPc.holds, he]
  | slice =>
    simp only [hpc] at h
    split_ifs at h <;> cases h <;>
      constructor <;> simp +contextual [ThreadPool.goto, ThreadPool.setWorker, MutexStep, hpc, WorkerPc.holds]
  | decrement =>
    simp only [hpc] at h
    cases h
    by_cases hr : s.spinRemaining = 1 <;>
      constructor <;> simp +contextual [ThreadPool.goto, ThreadPool.setWorker, MutexStep, hpc, WorkerPc.holds, hr]
  | signal =>
    simp only [hpc] at h
    cases h
    by_cases hd : s.disp = .asleep <;>
      constructor <;> simp +contextual [ThreadPool.goto, ThreadPool.setWorker, MutexStep, hpc, WorkerPc.holds, hd]
  | reload | unlock | claim | readTotal | readFn | readArg | running | sigUnlock =>
    simp only [hpc] at h
    cases h
    constructor <;> simp +contextual [ThreadPool.goto, ThreadPool.setWorker, MutexStep, hpc, WorkerPc.holds]

/-- What a step of the dispatching thread can do to the variables of the wait protocol. -/
structure DispFrame (s s' : ThreadPool w) : Prop where
  workers : s'.workers = s.workers ∨ (s.disp = .broadcast ∧ s'.workers = wakeAll s.workers)
  epoch : s'.spinEpoch = s.spinEpoch ∨ s'.disp = .bcastLock
  pending : s.disp = .bcastLock ∨ s.disp = .broadcast →
    s'.disp = .broadcast ∨ s'.workers = wakeAll s.workers
  asleep : s'.disp = .asleep → 0 < s'.spinRemaining
  past : s'.past = s.past ∨ (s.disp = .ret ∧ s'.past = ⟨s.call, s.started, s.finished⟩ :: s.past)
  mutex : MutexStep s.mutex s'.mutex none s.disp.holds s'.disp.holds

theorem dispatchStep_frame {blocking : Bool} (h : dispatchStep blocking s = some s') : DispFrame s s' := by
  unfold dispatchStep at h
  cases hd : s.disp with
  | idle | asleep => simp only [hd] at h; cases h
  | bcastLock | lock | woken =>
    simp only [hd] at h
    split_ifs at h with hm
    cases h
    constructor <;> simp [MutexStep, hd, DispPc.holds, hm]
  | setRemaining =>
    simp only [hd] at h
    cases h
    by_cases hw : w = 0 <;> constructor <;> simp [MutexStep, hd, DispPc.holds, hw]
  | slice | running =>
    simp only [hd] at h
    unfold afterSlice at h
    split_ifs at h <;> cases h <;> constructor <;> simp [MutexStep, hd, DispPc.holds]
  | spin | check =>
    simp only [hd] at h
    split_ifs at h with h0 <;> cases h <;> constructor <;> simp [MutexStep, hd, DispPc.holds, h0]
  | setFn | setArg | setTotal | setClaimed | incEpoch | broadcast | bcastUnlock | unlock | ret =>
    simp only [hd] at h
    cases h
    constructor <;> simp [MutexStep, hd, DispPc.holds]

/-! ## The invariant of the wait protocol -/

structure WaitOk (s : ThreadPool w) : Prop where
  /-- A worker that has missed the epoch sleeps only until the broadcast. -/
  worker : ∀ i, (s.workers i).pc = .asleep → (s.workers i).lastEpoch ≠ s.spinEpoch →
    s.disp = .bcastLock ∨ s.disp = .broadcast
  /-- While the dispatching thread sleeps a decrement or a signal is to come. -/
  disp : s.disp = .asleep → s.spinRemaining ≠ 0 ∨ ∃ i, (s.workers i).pc = .sigLock ∨ (s.workers i).pc = .signal
  holder : ∀ i, s.mutex = some (some i) → (s.workers i).pc.holds
  held : ∀ i, (s.workers i).pc.holds → s.mutex = some (some i)
  holderDisp : s.mutex = some none → s.disp.holds
  heldDisp : s.disp.holds → s.mutex = some none

theorem waitOk_init (w : Nat) : WaitOk (threadpoolCreate w) := by
  constructor <;> simp [threadpoolCreate, WorkerPc.holds, DispPc.holds]

theorem WaitOk.workerStep {i : Fin w} (hi : WaitOk s) (h : WorkerFrame s s' i) : WaitOk s' where
  worker j ha he := by
    by_cases hj : j = i
    · subst hj
      rw [h.epoch] at he
      exact absurd (h.asleep ha) he
    · rw [h.others j hj] at ha he
      rw [h.epoch] at he
      have hp := hi.worker j ha he
      rcases h.disp with hd | ⟨hd, -⟩
      · rwa [hd]
      · rw [hd] at hp; rcases hp with hp | hp <;> cases hp
  disp hd := by
    have hd0 : s.disp = .asleep := by
      rcases h.disp with h' | ⟨-, h'⟩
      · rwa [h'] at hd
      · rw [h'] at hd; cases hd
    rcases hi.disp hd0 with hr | ⟨j, hj⟩
    · rcases h.remaining with hr' | ⟨hr', hsig⟩
      · rw [hr']; exact .inl hr
      · by_cases h1 : s.spinRemaining = 1
        · exact .inr ⟨i, .inl (hsig h1)⟩
        · rw [hr']; exact .inl (by omega)
    · by_cases hji : j = i
      · subst hji
        rcases hj with hj | hj
        · exact .inr ⟨j, .inr (h.sigLock hj)⟩
        · exact absurd hd (h.signal hj)
      · rw [← h.others j hji] at hj
        exact .inr ⟨j, hj⟩
  holder j hm := by
    rcases h.mutex with ⟨hm', hb⟩ | ⟨-, hm', hb⟩ | ⟨-, hm', -⟩
    · rw [hm'] at hm
      by_cases hj : j = i
      · subst hj; rw [hb]; exact hi.holder j hm
      · rw [h.others j hj]; exact hi.holder j hm
    · rw [hm'] at hm; cases hm; exact hb
    · rw [hm'] at hm; cases hm
  held j hb := by
    by_cases hj : j = i
    · subst hj
      rcases h.mutex with ⟨hm', hb'⟩ | ⟨-, hm', -⟩ | ⟨-, -, hb'⟩
      · rw [hm']; exact hi.held j (hb' ▸ hb)
      · exact hm'
      · rw [hb'] at hb; cases hb
    · rw [h.others j hj] at hb
      have hm := hi.held j hb
      rcases h.mutex with ⟨hm', -⟩ | ⟨hm', -⟩ | ⟨hb', -⟩
      · rw [hm']; exact hm
      · rw [hm'] at hm; cases hm
      · rw [hi.held i hb'] at hm; cases hm; exact absurd rfl hj
  holderDisp hm := by
    have hd : s'.disp.holds = s.disp.holds := by
      rcases h.disp with hd | ⟨hd, hd'⟩
      · rw [hd]
      · rw [hd, hd']; rfl
    rcases h.mutex with ⟨hm', -⟩ | ⟨-, hm', -⟩ | ⟨-, hm', -⟩
    · rw [hm'] at hm; rw [hd]; exact hi.holderDisp hm
    · rw [hm'] at hm; cases hm
    · rw [hm'] at hm; cases hm
  heldDisp hb := by
    have hd : s'.disp.holds = s.disp.holds := by
      rcases h.disp with hd | ⟨hd, hd'⟩
      · rw [hd]
      · rw [hd, hd']; rfl
    have hm := hi.heldDisp (hd ▸ hb)
    rcases h.mutex with ⟨hm', -⟩ | ⟨hm', -⟩ | ⟨hb', -⟩
    · rw [hm']; exact hm
    · rw [hm'] at hm; cases hm
    · rw [hi.held i hb'] at hm; cases hm

theorem wakeAll_holds (workers : Fin w → Worker) (i : Fin w) :
    (wakeAll workers i).pc.holds = (workers i).pc.holds := by
  unfold wakeAll
  split
  · rename_i h; rw [h]; rfl
  · rfl

theorem wakeAll_not_asleep (workers : Fin w → Worker) (i : Fin w) : (wakeAll workers i).pc ≠ .asleep := by
  unfold wakeAll
  split
  · simp
  · assumption

theorem WaitOk.dispatchStep (hi : WaitOk s) (h : DispFrame s s') : WaitOk s' := by
  have hholds : ∀ i, (s'.workers i).pc.holds = (s.workers i).pc.holds := by
    intro i
    rcases h.workers with hw | ⟨-, hw⟩ <;> rw [hw]
    exact wakeAll_holds _ i
  refine ⟨?_, fun hd => .inl (h.asleep hd).ne', ?_, ?_, ?_, ?_⟩
  · intro i ha he
    rcases h.workers with hw | ⟨-, hw⟩
    · rcases h.epoch with hep | hep
      · rw [hw] at ha he
        rw [hep] at he
        rcases h.pending (hi.worker i ha he) with hd | hd
        · exact .inr hd
        · rw [← hw, hd] at ha; exact absurd ha (wakeAll_not_asleep _ i)
      · exact .inl hep
    · rw [hw] at ha; exact absurd ha (wakeAll_not_asleep _ i)
  · intro i hm
    rw [hholds]
    rcases h.mutex with ⟨hm', -⟩ | ⟨-, hm', -⟩ | ⟨-, hm', -⟩ <;> rw [hm'] at hm
    · exact hi.holder i hm
    · cases hm
    · cases hm
  · intro i hb
    rw [hholds] at hb
    have hm := hi.held i hb
    rcases h.mutex with ⟨hm', -⟩ | ⟨hm', -⟩ | ⟨hb', -⟩
    · rw [hm']; exact hm
    · rw [hm'] at hm; cases hm
    · rw [hi.heldDisp hb'] at hm; cases hm
  · intro hm
    rcases h.mutex with ⟨hm', hb⟩ | ⟨-, -, hb⟩ | ⟨-, hm', -⟩
    · rw [hm'] at hm; rw [hb]; exact hi.holderDisp hm
    · exact hb
    · rw [hm'] at hm; cases hm
  · intro hb
    rcases h.mutex with ⟨hm', hb'⟩ | ⟨-, hm', -⟩ | ⟨-, -, hb'⟩
    · rw [hm']; exact hi.heldDisp (hb' ▸ hb)
    · exact hm'
    · rw [hb'] at hb; cases hb

theorem WaitOk.poolStep {blocking : Bool} {a : Action w} (hi : WaitOk s) (h : poolStep blocking s a = some s') :
    WaitOk s' := by
  unfold Pool.poolStep at h
  cases a with
  | dispatch c =>
    dsimp only [beginStep] at h
    split_ifs at h with hd hc <;> cases h
    · exact hi
    · refine ⟨fun i ha he => ?_, nofun, hi.holder, hi.held, fun hm => ?_, nofun⟩
      · have hp := hi.worker i ha he
        rw [hd] at hp; rcases hp with hp | hp <;> cases hp
      · have hb := hi.holderDisp hm
        rw [hd] at hb; cases hb
  | disp => exact hi.dispatchStep (dispatchStep_frame h)
  | work i => exact hi.workerStep (workerStep_frame h)
  | spuriousDisp =>
    dsimp only at h
    split_ifs at h with hd
    cases h
    refine ⟨fun i ha he => ?_, nofun, hi.holder, hi.held, fun hm => ?_, nofun⟩
    · have hp := hi.worker i ha he
      rw [hd] at hp; rcases hp with hp | hp <;> cases hp
    · have hb := hi.holderDisp hm
      rw [hd] at hb; cases hb
  | spuriousWork i =>
    dsimp only at h
    split_ifs at h with ha
    cases h
    refine hi.workerStep (i := i) ?_
    constructor <;> simp +contextual [ThreadPool.goto, ThreadPool.setWorker, MutexStep, WorkerPc.holds, ha]

theorem reachable_waitOk {blocking : Bool} (h : (threadPool w blocking).Reachable s) : WaitOk s :=
  h.invariant (waitOk_init w) fun _ _ _ _ hi hs => hi.poolStep hs

end

end BitForge.Pool
