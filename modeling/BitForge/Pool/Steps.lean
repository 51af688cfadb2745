/-
Every step of the pool preserves its invariant: the waiting loops of the workers and of the
dispatching thread change no stage, claiming, starting, finishing and decrementing move one
thread to its next stage, and a new dispatch makes every worker due again.
-/
import BitForge.Pool.Invariant

namespace BitForge.Pool

open BitForge.Lib

section

variable {w : Nat} {s : ThreadPool w} {st : Option (Fin w) → Stage}

/-! ## Steps that change no stage -/

theorem phase_idle {d : DispPc} : d.phase = .idle ↔ d = .idle := by cases d <;> simp [DispPc.phase]

theorem written_live {d : DispPc} (h : d.phase = .live) : d.written = 5 := by
  cases d <;> first | rfl | cases h

theorem Resting.due {ph : Phase} {epoch last : Nat} {x : Stage} (h : Resting ph epoch last x) (hne : last ≠ epoch) :
    ph = .live ∧ x = .due := by
  cases ph with
  | idle | pre => exact absurd h.1 hne
  | live =>
    rcases h with ⟨h, -⟩ | ⟨-, h⟩
    · exact absurd h hne
    · exact ⟨rfl, h⟩

theorem Inv.setMutex (hi : Inv s st) (m : Option (Option (Fin w))) : Inv { s with mutex := m } st := { hi with }

theorem Inv.setWorker (hi : Inv s st) {i : Fin w} {wk : Worker}
    (h : WorkerOk s.disp.phase s.call s.spinEpoch wk.lastEpoch (st (some i)) wk.pc) : Inv (s.setWorker i wk) st :=
  { hi with
    workers := fun j => by
      dsimp only [ThreadPool.setWorker]
      by_cases hj : j = i
      · subst hj; rw [Function.update_self]; exact h
      · rw [Function.update_of_ne hj]; exact hi.workers j }

/-- The worker `i` goes on in its waiting loop. -/
theorem Inv.goto (hi : Inv s st) {i : Fin w} {pc : WorkerPc}
    (h : WorkerOk s.disp.phase s.call s.spinEpoch (s.workers i).lastEpoch (st (some i)) pc) : Inv (s.goto i pc) st :=
  hi.setWorker h

theorem Inv.setDisp (hi : Inv s st) {d : DispPc} (hp : d.phase = s.disp.phase) (hw : d.written = s.disp.written)
    (hs : d.stage w = s.disp.stage w) (hset : d = .unlock ∨ d = .ret → ∀ i, ∃ k, st (some i) = .done k) :
    Inv { s with disp := d } st :=
  { hi with
    call := fun h => hi.call fun h' => h (phase_idle.1 (hp.trans (phase_idle.2 h')))
    disp := hi.disp.trans hs.symm
    workers := fun i => by dsimp only; rw [hp]; exact hi.workers i
    fnSet := fun h => hi.fnSet (hw ▸ h)
    argSet := fun h => hi.argSet (hw ▸ h)
    totalSet := fun h => hi.totalSet (hw ▸ h)
    claimedSet := fun h => hi.claimedSet (hw ▸ h)
    idx_claimed := fun h => hi.idx_claimed (hw ▸ h)
    remainingSet := fun h => hi.remainingSet (hw ▸ h)
    settled := hset }

theorem Inv.setMutexDisp (hi : Inv s st) {m : Option (Option (Fin w))} {d : DispPc} (hp : d.phase = s.disp.phase)
    (hw : d.written = s.disp.written) (hs : d.stage w = s.disp.stage w)
    (hset : d = .unlock ∨ d = .ret → ∀ i, ∃ k, st (some i) = .done k) : Inv { s with mutex := m, disp := d } st :=
  (hi.setDisp hp hw hs hset).setMutex m

/-! ## Steps of one worker to its next stage -/

/-- The worker `i` moves on with its index: to `wk`, in the stage `x`. -/
theorem Inv.move (hi : Inv s st) {i : Fin w} {wk : Worker} {x : Stage} {r : Int} {S F : List (SliceCall w)}
    (hw : WorkerOk s.disp.phase s.call s.spinEpoch wk.lastEpoch x wk.pc) (hidx : x.idx = (st (some i)).idx)
    (hcl : x.isClaimed = (st (some i)).isClaimed) (hnd : ∀ k, st (some i) ≠ .done k)
    (hr : 5 ≤ s.disp.written → r = tally Stage.isOpen (ofWorkers (Function.update st (some i) x)))
    (hlog : LogOk s.call (Function.update st (some i) x) S F) :
    Inv { s with workers := Function.update s.workers i wk, spinRemaining := r, started := S, finished := F }
      (Function.update st (some i) x) := by
  have hsame : ∀ j, (Function.update st (some i) x (some j)).idx = (st (some j)).idx := by
    intro j
    by_cases hj : j = i
    · subst hj; rw [Function.update_self, hidx]
    · rw [Function.update_of_ne (by simpa using hj)]
  exact
    { call := hi.call
      disp := by rw [Function.update_of_ne (by simp)]; exact hi.disp
      workers := by
        intro j
        dsimp only
        by_cases hj : j = i
        · subst hj; rw [Function.update_self, Function.update_self]; exact hw
        · rw [Function.update_of_ne hj, Function.update_of_ne (by simpa using hj)]; exact hi.workers j
      fnSet := hi.fnSet
      argSet := hi.argSet
      totalSet := hi.totalSet
      claimedSet := fun h => by
        rw [ofWorkers_update_some, tally_update_same hcl]; exact hi.claimedSet h
      idx_claimed := fun h j k hj => hi.idx_claimed h j k (by rw [← hsame]; exact hj)
      remainingSet := hr
      idx_lt := fun j k hj => hi.idx_lt j k (by rw [← hsame]; exact hj)
      idx_inj := fun j j' k hj hj' => hi.idx_inj j j' k (by rw [← hsame]; exact hj) (by rw [← hsame]; exact hj')
      settled := fun h => by obtain ⟨k, hk⟩ := hi.settled h i; exact absurd hk (hnd k)
      log := hlog }

/-- As `Inv.move`, for the stages in which the slice is still open. -/
theorem Inv.moveOpen (hi : Inv s st) {i : Fin w} {wk : Worker} {x : Stage} {S F : List (SliceCall w)}
    (hw : WorkerOk s.disp.phase s.call s.spinEpoch wk.lastEpoch x wk.pc) (hidx : x.idx = (st (some i)).idx)
    (hcl : x.isClaimed = (st (some i)).isClaimed) (hnd : ∀ k, st (some i) ≠ .done k) (hop : x.isOpen = true)
    (hlog : LogOk s.call (Function.update st (some i) x) S F) :
    Inv { s with workers := Function.update s.workers i wk, started := S, finished := F }
      (Function.update st (some i) x) := by
  have hop' : (st (some i)).isOpen = true := by
    cases hx : st (some i) with
    | done k => exact absurd hx (hnd k)
    | _ => rfl
  refine hi.move hw hidx hcl hnd (fun h => ?_) hlog
  rw [hi.remainingSet h, ofWorkers_update_some, tally_update_same (hop.trans hop'.symm)]

/-- A due worker takes the index `spin_claimed`. -/
theorem Inv.claim (hi : Inv s st) {i : Fin w} (hl : s.disp.phase = .live)
    (he : (s.workers i).lastEpoch = s.spinEpoch) (hd : st (some i) = .due) :
    Inv ({ s with spinClaimed := s.spinClaimed + 1 }.goto i (.readTotal s.spinClaimed))
      (Function.update st (some i) (.claimed s.spinClaimed)) := by
  have h5 := written_live hl
  have hfree : (ofWorkers st i).isClaimed = false := by unfold ofWorkers; rw [hd]; rfl
  have hclaimed := hi.claimedSet (by omega)
  have hlt : s.spinClaimed < w := by rw [hclaimed]; exact tally_lt _ _ hfree
  have hother : ∀ {j k}, (Function.update st (some i) (.claimed s.spinClaimed) (some j)).idx = some k →
      (j = i ∧ k = s.spinClaimed) ∨ (j ≠ i ∧ (st (some j)).idx = some k) := by
    intro j k hj
    by_cases hji : j = i
    · subst hji; rw [Function.update_self] at hj; exact .inl ⟨rfl, (Option.some.inj hj).symm⟩
    · rw [Function.update_of_ne (by simpa using hji)] at hj; exact .inr ⟨hji, hj⟩
  exact
    { call := hi.call
      disp := by rw [Function.update_of_ne (by simp)]; exact hi.disp
      workers := by
        intro j
        dsimp only [ThreadPool.goto, ThreadPool.setWorker]
        by_cases hj : j = i
        · subst hj; rw [Function.update_self, Function.update_self]; exact ⟨hl, he, rfl⟩
        · rw [Function.update_of_ne hj, Function.update_of_ne (by simpa using hj)]; exact hi.workers j
      fnSet := hi.fnSet
      argSet := hi.argSet
      totalSet := hi.totalSet
      claimedSet := fun _ => by
        rw [ofWorkers_update_some, tally_update_add hfree rfl, ← hclaimed]; rfl
      idx_claimed := by
        intro h j k hj
        show k < s.spinClaimed + 1
        rcases hother hj with ⟨-, rfl⟩ | ⟨-, hj⟩
        · exact Nat.lt_succ_self _
        · exact Nat.lt_succ_of_lt (hi.idx_claimed h j k hj)
      remainingSet := fun h => by
        rw [ofWorkers_update_some, tally_update_same]
        · exact hi.remainingSet h
        · unfold ofWorkers; rw [hd]; rfl
      idx_lt := by
        intro j k hj
        rcases hother hj with ⟨-, rfl⟩ | ⟨-, hj⟩
        · exact hlt
        · exact hi.idx_lt j k hj
      idx_inj := by
        intro j j' k hj hj'
        have hfresh : ∀ {a}, (st (some a)).idx ≠ some s.spinClaimed := fun ha =>
          absurd (hi.idx_claimed (by omega) _ _ ha) (Nat.lt_irrefl _)
        rcases hother hj with ⟨h1, h1'⟩ | ⟨-, h1⟩ <;> rcases hother hj' with ⟨h2, h2'⟩ | ⟨-, h2⟩
        · exact h1.trans h2.symm
        · rw [h1'] at h2; exact absurd h2 hfresh
        · rw [h2'] at h1; exact absurd h1 hfresh
        · exact hi.idx_inj j j' k h1 h2
      settled := fun h => by obtain ⟨k, hk⟩ := hi.settled h i; rw [hd] at hk; cases hk
      log := hi.log.quiet (by rw [hd]; rfl) (by rw [hd]; rfl) nofun }

/-! ## The steps -/

theorem Inv.workerStep {blocking : Bool} {i : Fin w} {s' : ThreadPool w} (hi : Inv s st)
    (h : workerStep blocking s i = some s') : ∃ st', Inv s' st' := by
  have hw := hi.workers i
  unfold Pool.workerStep at h
  cases hpc : (s.workers i).pc with
  | top =>
    simp only [hpc] at h hw
    cases h
    exact ⟨st, hi.goto (by cases blocking <;> exact hw)⟩
  | spin spins =>
    simp only [hpc] at h hw
    split at h
    · rename_i hne
      obtain ⟨hl, hd⟩ := Resting.due hw (Ne.symm hne)
      cases h
      exact ⟨st, hi.setWorker ⟨hl, rfl, hd⟩⟩
    · split at h <;> cases h <;> exact ⟨st, hi.goto hw⟩
  | lock | woken | sigLock =>
    simp only [hpc] at h hw
    split at h
    · cases h; exact ⟨st, (hi.setMutex _).goto hw⟩
    · cases h
  | check =>
    simp only [hpc] at h hw
    split at h
    · cases h; exact ⟨st, (hi.setMutex _).goto hw⟩
    · rename_i hne
      obtain ⟨hl, hd⟩ := Resting.due hw (Ne.symm hne)
      cases h
      exact ⟨st, hi.goto ⟨hl, Ne.symm hne, hd⟩⟩
  | asleep => simp only [hpc] at h; cases h
  | reload =>
    simp only [hpc] at h hw
    obtain ⟨hl, -, hd⟩ := hw
    cases h
    exact ⟨st, hi.setWorker ⟨hl, rfl, hd⟩⟩
  | unlock =>
    simp only [hpc] at h hw
    cases h
    exact ⟨st, (hi.setMutex _).goto hw⟩
  | claim =>
    simp only [hpc] at h hw
    obtain ⟨hl, he, hd⟩ := hw
    cases h
    exact ⟨_, hi.claim hl he hd⟩
  | readTotal k =>
    simp only [hpc] at h hw
    obtain ⟨hl, he, hk⟩ := hw
    have h5 := written_live hl
    cases h
    exact ⟨st, hi.goto ⟨hl, he, hk, hi.totalSet (by omega)⟩⟩
  | readFn k total =>
    simp only [hpc] at h hw
    obtain ⟨hl, he, hk, ht⟩ := hw
    have h5 := written_live hl
    cases h
    exact ⟨st, hi.goto ⟨hl, he, hk, ht, hi.fnSet (by omega)⟩⟩
  | readArg k total fn =>
    simp only [hpc] at h hw
    obtain ⟨hl, he, hk, rfl, rfl⟩ := hw
    have h5 := written_live hl
    cases h
    refine ⟨st, hi.goto ⟨hl, he, hk, ?_⟩⟩
    rw [hi.argSet (by omega)]
  | slice k task =>
    simp only [hpc] at h hw
    obtain ⟨hl, he, hk, rfl⟩ := hw
    have hidle : s.disp ≠ .idle := fun hd => by rw [hd] at hl; cases hl
    have hnd : ∀ k', st (some i) ≠ .done k' := fun k' hk' => by rw [hk] at hk'; cases hk'
    -- a worker whose slice is empty calls nothing, and the log stays as it is
    split at h
    · rename_i hb
      cases h
      exact ⟨_, hi.moveOpen ⟨hl, he, rfl, rfl⟩ (by rw [hk]; rfl) (by rw [hk]; rfl) hnd rfl (hi.log.start hk hb.1)⟩
    · rename_i hb
      cases h
      exact ⟨_, hi.moveOpen ⟨hl, he, k, rfl⟩ (by rw [hk]; rfl) (by rw [hk]; rfl) hnd rfl
        (hi.log.skip hk fun hb' => hb ⟨hb', hi.call hidle⟩)⟩
  | running k task =>
    simp only [hpc] at h hw
    obtain ⟨hl, he, hk, rfl⟩ := hw
    have hnd : ∀ k', st (some i) ≠ .done k' := fun k' hk' => by rw [hk] at hk'; cases hk'
    cases h
    exact ⟨_, hi.moveOpen ⟨hl, he, k, rfl⟩ (by rw [hk]; rfl) (by rw [hk]; rfl) hnd rfl (hi.log.finish hk)⟩
  | decrement =>
    simp only [hpc] at h hw
    obtain ⟨hl, he, k, hk⟩ := hw
    have hnd : ∀ k', st (some i) ≠ .done k' := fun k' hk' => by rw [hk] at hk'; cases hk'
    have hopen : (ofWorkers st i).isOpen = true := by unfold ofWorkers; rw [hk]; rfl
    -- whether it was the last open one only decides where the worker goes next
    have hrest : WorkerOk s.disp.phase s.call s.spinEpoch (s.workers i).lastEpoch (.done k)
        (if s.spinRemaining = 1 then .sigLock else .top) := by
      have hr : Resting s.disp.phase s.spinEpoch (s.workers i).lastEpoch (.done k) := by
        rw [hl]; exact .inl ⟨he, k, rfl⟩
      split <;> exact hr
    cases h
    refine ⟨_, hi.move hrest (by rw [hk]; rfl) (by rw [hk]; rfl) hnd (fun h5 => ?_)
      (hi.log.quiet (by rw [hk]; rfl) (by rw [hk]; rfl) nofun)⟩
    have hsub : tally Stage.isOpen (ofWorkers st) =
        tally Stage.isOpen (Function.update (ofWorkers st) i (.done k)) + 1 := tally_update_sub hopen rfl
    dsimp only
    rw [ofWorkers_update_some, hi.remainingSet h5, hsub]
    omega
  | signal =>
    simp only [hpc] at h hw
    cases h
    have hd : Inv { s with disp := if s.disp = .asleep then DispPc.woken else s.disp } st := by
      split
      · rename_i hd; exact hi.setDisp (by rw [hd]; rfl) (by rw [hd]; rfl) (by rw [hd]; rfl) (by simp)
      · exact hi
    refine ⟨st, hd.goto ?_⟩
    have hph : (if s.disp = .asleep then DispPc.woken else s.disp).phase = s.disp.phase := by
      split
      · rename_i hd; rw [hd]; rfl
      · rfl
    dsimp only
    rw [hph]
    exact hw
  | sigUnlock =>
    simp only [hpc] at h hw
    cases h
    exact ⟨st, (hi.setMutex _).goto hw⟩

/-! ## Steps of the dispatching thread -/

/-- Until the epoch is published every worker is due, and none looks at the task. -/
theorem Inv.due (hi : Inv s st) (hp : s.disp.phase = .pre) (i : Fin w) :
    (s.workers i).lastEpoch = s.spinEpoch ∧ st (some i) = .due := by
  have hr := (hi.workers i).not_live (by rw [hp]; decide)
  rw [hp] at hr
  exact hr

/-- Writing the task and the counters, before the epoch is published. -/
theorem Inv.write (hi : Inv s st) (hp : s.disp.phase = .pre) {fn arg total claimed : Nat} {remaining : Int} {d : DispPc}
    (hd : d.phase = .pre ∨ w = 0 ∧ d = .slice) (hfn : 1 ≤ d.written → fn = s.call.fn)
    (harg : 2 ≤ d.written → arg = s.call.arg) (htotal : 3 ≤ d.written → total = s.call.total)
    (hclaimed : 4 ≤ d.written → claimed = 0) (hremaining : 5 ≤ d.written → remaining = w) :
    Inv { s with
      taskFn := fn, taskArg := arg, taskTotal := total, spinClaimed := claimed, spinRemaining := remaining, disp := d }
      st := by
  have hdue := hi.due hp
  have hnone : ∀ i k, (st (some i)).idx ≠ some k := fun i k h => by rw [(hdue i).2] at h; cases h
  have hst : s.disp.stage w = .claimed w := by cases hds : s.disp <;> rw [hds] at hp <;> first | rfl | cases hp
  have hst' : d.stage w = .claimed w := by
    rcases hd with hd | ⟨-, rfl⟩
    · cases d <;> first | rfl | cases hd
    · rfl
  exact
    { call := fun _ => hi.call fun h => by rw [h] at hp; cases hp
      disp := by rw [hi.disp, hst]; exact hst'.symm
      workers := by
        intro i
        rcases hd with hd | ⟨rfl, -⟩
        · exact (hi.workers i).resting (by rw [hp]; decide) (by dsimp only; rw [hd]; exact hdue i)
        · exact i.elim0
      fnSet := hfn
      argSet := harg
      totalSet := htotal
      claimedSet := fun h => by
        rw [hclaimed h]
        exact ((tally_eq_zero _ _).2 fun i => by unfold ofWorkers; rw [(hdue i).2]; rfl).symm
      idx_claimed := fun _ i k h => absurd h (hnone i k)
      remainingSet := fun h => by
        rw [hremaining h]
        exact congrArg _ ((tally_eq_all _ _).2 fun i => by unfold ofWorkers; rw [(hdue i).2]; rfl).symm
      idx_lt := fun i k h => absurd h (hnone i k)
      idx_inj := fun i j k h => absurd h (hnone i k)
      settled := fun h => by
        rcases hd with hd | ⟨-, rfl⟩
        · rcases h with rfl | rfl <;> cases hd
        · rcases h with h | h <;> cases h
      log := hi.log }

/-- Publishing the epoch makes every worker due. -/
theorem Inv.publish (hi : Inv s st) (hd : s.disp = .incEpoch) :
    Inv { s with spinEpoch := (s.spinEpoch + 1) % 2 ^ 32, disp := .bcastLock } st := by
  have hp : s.disp.phase = .pre := by rw [hd]; rfl
  have hw : s.disp.written = 5 := by rw [hd]; rfl
  exact
    { hi with
      call := fun _ => hi.call (by rw [hd]; decide)
      disp := by rw [hi.disp, hd]; rfl
      workers := by
        intro i
        obtain ⟨he, hst⟩ := hi.due hp i
        refine (hi.workers i).resting (by rw [hp]; decide) (.inr ⟨?_, hst⟩)
        rw [he]
        dsimp only
        omega
      fnSet := fun _ => hi.fnSet (by omega)
      argSet := fun _ => hi.argSet (by omega)
      totalSet := fun _ => hi.totalSet (by omega)
      claimedSet := fun _ => hi.claimedSet (by omega)
      idx_claimed := fun _ => hi.idx_claimed (by omega)
      remainingSet := fun _ => hi.remainingSet (by omega)
      settled := fun h => by rcases h with h | h <;> cases h }

theorem Inv.wakeAll (hi : Inv s st) : Inv { s with workers := wakeAll s.workers } st :=
  { hi with
    workers := by
      intro i
      have hw := hi.workers i
      dsimp only [Pool.wakeAll]
      split
      · rename_i ha; rw [ha] at hw; exact hw
      · exact hw }

/-- The dispatching thread moves on with its own slice. -/
theorem Inv.moveDisp (hi : Inv s st) {d : DispPc} {S F : List (SliceCall w)} (hl : s.disp.phase = .live)
    (hl' : d.phase = .live) (hset : d = .unlock ∨ d = .ret → w = 0)
    (hlog : LogOk s.call (Function.update st none (d.stage w)) S F) :
    Inv { s with started := S, finished := F, disp := d } (Function.update st none (d.stage w)) := by
  have hw := written_live hl
  have hsame : ∀ i : Fin w, Function.update st none (d.stage w) (some i) = st (some i) := fun i =>
    Function.update_of_ne (by simp) ..
  exact
    { call := fun _ => hi.call fun h => by rw [h] at hl; cases hl
      disp := Function.update_self ..
      workers := fun i => by
        dsimp only
        rw [hl', hsame, ← hl]
        exact hi.workers i
      fnSet := fun _ => hi.fnSet (by omega)
      argSet := fun _ => hi.argSet (by omega)
      totalSet := fun _ => hi.totalSet (by omega)
      claimedSet := fun _ => by rw [ofWorkers_update_none]; exact hi.claimedSet (by omega)
      idx_claimed := fun _ i k h => hi.idx_claimed (by omega) i k (by rw [← hsame]; exact h)
      remainingSet := fun _ => by rw [ofWorkers_update_none]; exact hi.remainingSet (by omega)
      idx_lt := fun i k h => hi.idx_lt i k (by rw [← hsame]; exact h)
      idx_inj := fun i j k h h' => hi.idx_inj i j k (by rw [← hsame]; exact h) (by rw [← hsame]; exact h')
      settled := fun h i => by cases hset h; exact i.elim0
      log := hlog }

/-- When `spin_remaining` is 0 every worker is done. -/
theorem Inv.all_done (hi : Inv s st) (hl : s.disp.phase = .live) (h0 : ¬ 0 < s.spinRemaining) (i : Fin w) :
    ∃ k, st (some i) = .done k := by
  have hw := written_live hl
  have hz := hi.remainingSet (by omega)
  have hopen := (tally_eq_zero Stage.isOpen (ofWorkers st)).1 (by omega) i
  unfold ofWorkers at hopen
  cases hst : st (some i) with
  | done k => exact ⟨k, rfl⟩
  | _ => rw [hst] at hopen; cases hopen

/-- The call returns. -/
theorem Inv.ret (hi : Inv s st) (hd : s.disp = .ret) (past : List (Returned w)) :
    Inv { s with past := past, disp := .idle } st :=
  { hi with
    call := fun h => absurd rfl h
    disp := by rw [hi.disp, hd]; rfl
    workers := by
      intro i
      obtain ⟨k, hk⟩ := hi.settled (.inr hd) i
      have hw := hi.workers i
      rw [hd, hk] at hw
      rw [hk]
      exact hw.done_idle
    fnSet := fun h => absurd h (Nat.not_succ_le_zero _)
    argSet := fun h => absurd h (Nat.not_succ_le_zero _)
    totalSet := fun h => absurd h (Nat.not_succ_le_zero _)
    claimedSet := fun h => absurd h (Nat.not_succ_le_zero _)
    idx_claimed := fun h => absurd h (Nat.not_succ_le_zero _)
    remainingSet := fun h => absurd h (Nat.not_succ_le_zero _)
    settled := fun h => by rcases h with h | h <;> cases h }

theorem afterSlice_phase (w : Nat) (blocking : Bool) : (afterSlice w blocking).phase = .live := by
  unfold afterSlice; split_ifs <;> rfl

theorem afterSlice_stage (w : Nat) (blocking : Bool) : (afterSlice w blocking).stage w = .ran w := by
  unfold afterSlice; split_ifs <;> rfl

theorem afterSlice_settled {w : Nat} {blocking : Bool}
    (h : afterSlice w blocking = .unlock ∨ afterSlice w blocking = .ret) : w = 0 := by
  unfold afterSlice at h
  split_ifs at h with hw <;> first | exact hw | (rcases h with h | h <;> cases h)

theorem Inv.dispatchStep {blocking : Bool} {s' : ThreadPool w} (hi : Inv s st)
    (h : dispatchStep blocking s = some s') : ∃ st', Inv s' st' := by
  have hst := hi.disp
  unfold Pool.dispatchStep at h
  cases hd : s.disp with
  | idle | asleep => simp only [hd] at h; cases h
  | setFn =>
    simp only [hd] at h; cases h
    exact ⟨st, hi.write (by rw [hd]; rfl) (.inl rfl) (fun _ => rfl) (absurd · (by decide)) (absurd · (by decide))
      (absurd · (by decide)) (absurd · (by decide))⟩
  | setArg =>
    simp only [hd] at h; cases h
    exact ⟨st, hi.write (by rw [hd]; rfl) (.inl rfl) (fun _ => hi.fnSet (by rw [hd]; decide)) (fun _ => rfl)
      (absurd · (by decide)) (absurd · (by decide)) (absurd · (by decide))⟩
  | setTotal =>
    simp only [hd] at h; cases h
    exact ⟨st, hi.write (by rw [hd]; rfl) (.inl rfl) (fun _ => hi.fnSet (by rw [hd]; decide))
      (fun _ => hi.argSet (by rw [hd]; decide)) (fun _ => rfl) (absurd · (by decide)) (absurd · (by decide))⟩
  | setClaimed =>
    simp only [hd] at h; cases h
    exact ⟨st, hi.write (by rw [hd]; rfl) (.inl rfl) (fun _ => hi.fnSet (by rw [hd]; decide))
      (fun _ => hi.argSet (by rw [hd]; decide)) (fun _ => hi.totalSet (by rw [hd]; decide)) (fun _ => rfl)
      (absurd · (by decide))⟩
  | setRemaining =>
    simp only [hd] at h; cases h
    have hp : s.disp.phase = .pre := by rw [hd]; rfl
    have hclaimed : s.spinClaimed = 0 := by
      rw [hi.claimedSet (by rw [hd]; decide), tally_eq_zero]
      intro i; unfold ofWorkers; rw [(hi.due hp i).2]; rfl
    refine ⟨st, hi.write hp ?_ (fun _ => hi.fnSet (by rw [hd]; decide)) (fun _ => hi.argSet (by rw [hd]; decide))
      (fun _ => hi.totalSet (by rw [hd]; decide)) (fun _ => hclaimed) (fun _ => rfl)⟩
    split_ifs with hw
    · exact .inr ⟨hw, rfl⟩
    · exact .inl rfl
  | incEpoch => simp only [hd] at h; cases h; exact ⟨st, hi.publish hd⟩
  | bcastLock | lock | woken =>
    simp only [hd] at h
    split at h
    · cases h
      exact ⟨st, hi.setMutexDisp (by rw [hd]; rfl) (by rw [hd]; rfl) (by rw [hd]; rfl) (by simp)⟩
    · cases h
  | broadcast =>
    simp only [hd] at h; cases h
    exact ⟨st, hi.wakeAll.setDisp (by dsimp only; rw [hd]; rfl) (by dsimp only; rw [hd]; rfl)
      (by dsimp only; rw [hd]; rfl) (by simp)⟩
  | bcastUnlock =>
    simp only [hd] at h; cases h
    exact ⟨st, hi.setMutexDisp (by rw [hd]; rfl) (by rw [hd]; rfl) (by rw [hd]; rfl) (by simp)⟩
  | slice =>
    simp only [hd] at h
    have hl : s.disp.phase = .live := by rw [hd]; rfl
    have hst' : st none = .claimed w := by rw [hst, hd]; rfl
    split at h
    · rename_i hb
      cases h
      exact ⟨_, hi.moveDisp hl rfl (by simp) (hi.log.start hst' hb)⟩
    · rename_i hb
      cases h
      refine ⟨_, hi.moveDisp hl (afterSlice_phase w blocking) afterSlice_settled ?_⟩
      rw [afterSlice_stage]
      exact hi.log.skip hst' hb
  | running =>
    simp only [hd] at h; cases h
    have hst' : st none = .running w := by rw [hst, hd]; rfl
    refine ⟨_, hi.moveDisp (by rw [hd]; rfl) (afterSlice_phase w blocking) afterSlice_settled ?_⟩
    rw [afterSlice_stage]
    exact hi.log.finish hst'
  | spin spins =>
    simp only [hd] at h
    split at h
    · split at h <;> cases h <;>
        exact ⟨st, hi.setDisp (by rw [hd]; rfl) (by rw [hd]; rfl) (by rw [hd]; rfl) (by simp)⟩
    · rename_i h0
      cases h
      exact ⟨st, hi.setDisp (by rw [hd]; rfl) (by rw [hd]; rfl) (by rw [hd]; rfl)
        fun _ => hi.all_done (by rw [hd]; rfl) h0⟩
  | check =>
    simp only [hd] at h
    split at h
    · cases h
      exact ⟨st, hi.setMutexDisp (by rw [hd]; rfl) (by rw [hd]; rfl) (by rw [hd]; rfl) (by simp)⟩
    · rename_i h0
      cases h
      exact ⟨st, hi.setDisp (by rw [hd]; rfl) (by rw [hd]; rfl) (by rw [hd]; rfl)
        fun _ => hi.all_done (by rw [hd]; rfl) h0⟩
  | unlock =>
    simp only [hd] at h; cases h
    exact ⟨st, hi.setMutexDisp (by rw [hd]; rfl) (by rw [hd]; rfl) (by rw [hd]; rfl) fun _ => hi.settled (.inl hd)⟩
  | ret => simp only [hd] at h; cases h; exact ⟨st, hi.ret hd _⟩

/-- A new dispatch makes every worker due. -/
theorem Inv.beginStep {c : Call} {s' : ThreadPool w} (hi : Inv s st) (h : beginStep s c = some s') :
    ∃ st', Inv s' st' := by
  unfold Pool.beginStep at h
  split_ifs at h with hd hc
  · cases h; exact ⟨st, hi⟩
  · cases h
    have hnone : ∀ (t : Option (Fin w)) (k : Nat), (t.elim (Stage.claimed w) fun _ => .due).started ≠ some k ∧
        (t.elim (Stage.claimed w) fun _ => .due).finished ≠ some k := by
      intro t k
      cases t <;> exact ⟨(Option.some_ne_none k).symm, (Option.some_ne_none k).symm⟩
    refine ⟨fun t => t.elim (.claimed w) fun _ => .due, ?_⟩
    exact
      { call := fun _ hfn => hc (.inl hfn)
        disp := rfl
        workers := by
          intro i
          have hr := (hi.workers i).not_live (by rw [hd]; decide)
          rw [hd] at hr
          exact (hi.workers i).resting (by rw [hd]; decide) ⟨hr.1, rfl⟩
        fnSet := fun h => absurd h (Nat.not_succ_le_zero _)
        argSet := fun h => absurd h (Nat.not_succ_le_zero _)
        totalSet := fun h => absurd h (Nat.not_succ_le_zero _)
        claimedSet := fun h => absurd h (Nat.not_succ_le_zero _)
        idx_claimed := fun h => absurd h (Nat.not_succ_le_zero _)
        remainingSet := fun h => absurd h (Nat.not_succ_le_zero _)
        idx_lt := fun _ k hk => ((Option.some_ne_none k).symm hk).elim
        idx_inj := fun _ _ k hk _ => ((Option.some_ne_none k).symm hk).elim
        settled := fun h => by rcases h with h | h <;> cases h
        log :=
          { started_iff := fun r =>
              ⟨(absurd · List.not_mem_nil), by rintro ⟨t, k, hk, -⟩; exact absurd hk (hnone t k).1⟩
            finished_iff := fun r =>
              ⟨(absurd · List.not_mem_nil), by rintro ⟨t, k, hk, -⟩; exact absurd hk (hnone t k).2⟩
            nodup := List.nodup_nil
            busy := fun t k hk => by cases t <;> cases hk } }

/-- Every step preserves the invariant, for some stages. -/
theorem Inv.poolStep {blocking : Bool} {a : Action w} {s' : ThreadPool w} (hi : Inv s st)
    (h : poolStep blocking s a = some s') : ∃ st', Inv s' st' := by
  cases a with
  | dispatch c => exact hi.beginStep h
  | disp => exact hi.dispatchStep h
  | work i => exact hi.workerStep h
  | spuriousDisp =>
    unfold Pool.poolStep at h
    dsimp only at h
    split_ifs at h with hd
    cases h
    exact ⟨st, hi.setDisp (by rw [hd]; rfl) (by rw [hd]; rfl) (by rw [hd]; rfl) (by simp)⟩
  | spuriousWork i =>
    unfold Pool.poolStep at h
    dsimp only at h
    split_ifs at h with ha
    cases h
    have hw := hi.workers i
    rw [ha] at hw
    exact ⟨st, hi.goto hw⟩

theorem reachable_inv {blocking : Bool} (h : (threadPool w blocking).Reachable s) : ∃ st, Inv s st := by
  refine h.invariant (I := fun s => ∃ st, Inv s st) ⟨_, inv_init w⟩ ?_
  rintro s1 a s2 - ⟨st, hi⟩ hstep
  exact hi.poolStep hstep

end

end BitForge.Pool
