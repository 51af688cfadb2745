/-
Exactly-once dispatch: in every reachable state of the pool, for every number of workers and
both waiting modes, the slice calls of the running dispatch are disjoint slices of its own task,
a returned dispatch has finished all of them and they cover its indices, and the dispatching
thread never sleeps while all workers do.
-/
import BitForge.Pool.Wait

namespace BitForge.Pool

open BitForge.Lib

/-- The slice calls made so far belong to the call `c`, and no two overlap, share an index or
come from one thread. -/
structure Sound {w : Nat} (c : Call) (started : List (SliceCall w)) : Prop where
  task : ∀ r ∈ started, r.fn = c.fn ∧ r.arg = c.arg
  range : ∀ r ∈ started, r.start < r.stop ∧ r.stop ≤ c.total
  idx : (started.map SliceCall.idx).Nodup
  thread : (started.map SliceCall.thread).Nodup
  disjoint : started.Pairwise fun r r' => r.stop ≤ r'.start ∨ r'.stop ≤ r.start

/-- All slices of the call `c` have been made and are finished. -/
structure Exact {w : Nat} (c : Call) (started finished : List (SliceCall w)) : Prop extends Sound c started where
  cover : ∀ x < c.total, ∃ r ∈ started, r.start ≤ x ∧ x < r.stop
  finished : ∀ r ∈ started, r ∈ finished

structure DispatchOk {w : Nat} (blocking : Bool) (s : ThreadPool w) : Prop where
  /-- The running dispatch. -/
  running : Sound s.call s.started
  /-- Every dispatch that has returned, at its return. -/
  returned : ∀ r ∈ s.past, Exact r.call r.started r.finished
  /-- After the return no slice of it starts any more. -/
  idle : s.disp = .idle → Exact s.call s.started s.finished
  /-- While the dispatching thread sleeps some worker is awake. -/
  awake : s.disp = .asleep → ∃ i, (s.workers i).pc ≠ .asleep
  /-- A worker that sleeps once the broadcast is over has finished its slice. -/
  rested : ∀ i, (s.workers i).pc = .asleep → s.disp ≠ .bcastLock → s.disp ≠ .broadcast →
    (s.workers i).lastEpoch = s.spinEpoch
  /-- During a dispatch some thread can go on. -/
  progress : s.disp ≠ .idle →
    (dispatchStep blocking s).isSome ∨ ∃ i, (workerStep blocking s i).isSome

section

variable {w : Nat} {s : ThreadPool w} {st : Option (Fin w) → Stage}

/-! ## Slices of a run -/

theorem DispPc.stage_idx (w : Nat) (d : DispPc) : (d.stage w).idx = some w := by cases d <;> rfl

/-- The indices of different threads are different; that of the dispatching thread is `w`. -/
theorem Inv.thread_inj (hi : Inv s st) {t t' : Option (Fin w)} {k : Nat} (h : (st t).idx = some k)
    (h' : (st t').idx = some k) : t = t' := by
  cases t with
  | none =>
    rw [hi.disp, DispPc.stage_idx] at h
    cases h
    cases t' with
    | none => rfl
    | some j => exact absurd (hi.idx_lt j _ h') (Nat.lt_irrefl _)
  | some i =>
    cases t' with
    | none =>
      rw [hi.disp, DispPc.stage_idx] at h'
      cases h'
      exact absurd (hi.idx_lt i _ h) (Nat.lt_irrefl _)
    | some j => rw [hi.idx_inj i j k h h']

theorem Inv.idx_le (hi : Inv s st) {t : Option (Fin w)} {k : Nat} (h : (st t).idx = some k) : k < w + 1 := by
  cases t with
  | none =>
    rw [hi.disp, DispPc.stage_idx] at h
    cases h
    exact Nat.lt_succ_self w
  | some i => exact Nat.lt_succ_of_lt (hi.idx_lt i k h)

/-- A slice that starts below `total` is not empty and ends within it. -/
theorem busy_range {c : Call} {k : Nat} (hk : k < w + 1) (hb : Busy c w k) :
    (sliceRange c.total (w + 1) k).1 < (sliceRange c.total (w + 1) k).2 ∧
      (sliceRange c.total (w + 1) k).2 ≤ c.total := by
  unfold Busy at hb
  rw [sliceRange_eq] at hb ⊢
  dsimp only at hb ⊢
  constructor
  · -- otherwise the chunk is empty: no rows per thread and no remainder left
    by_contra hge
    unfold bound at hb hge
    have hz : c.total / (w + 1) = 0 := by
      rw [Nat.succ_mul] at hge
      generalize c.total / (w + 1) = chunk at hge
      generalize k * chunk = p at hge
      generalize c.total % (w + 1) = remainder at hge
      omega
    have hmod : c.total % (w + 1) = c.total := Nat.mod_eq_of_lt ((Nat.div_eq_zero_iff_lt (Nat.succ_pos w)).1 hz)
    rw [hz, Nat.mul_zero, Nat.mul_zero, hmod] at hge
    rw [hz, Nat.mul_zero, hmod] at hb
    omega
  · calc bound c.total (w + 1) (k + 1) ≤ bound c.total (w + 1) (w + 1) := bound_mono _ _ hk
      _ = c.total := bound_last (Nat.succ_pos w) _

theorem Inv.mem_started (hi : Inv s st) {r : SliceCall w} (h : r ∈ s.started) :
    ∃ t k, (st t).idx = some k ∧ Busy s.call w k ∧ r = sliceCall t k s.call := by
  obtain ⟨t, k, hk, hb, rfl⟩ := (hi.log.started_iff r).1 h
  exact ⟨t, k, Stage.idx_of_started hk, hb, rfl⟩

theorem Inv.sound (hi : Inv s st) : Sound s.call s.started := by
  have hidx : ∀ r ∈ s.started, ∀ r' ∈ s.started, r.idx = r'.idx → r = r' := by
    intro r hr r' hr' he
    obtain ⟨t, k, hk, -, rfl⟩ := hi.mem_started hr
    obtain ⟨t', k', hk', -, rfl⟩ := hi.mem_started hr'
    obtain rfl : k = k' := he
    rw [hi.thread_inj hk hk']
  have hthread : ∀ r ∈ s.started, ∀ r' ∈ s.started, r.thread = r'.thread → r = r' := by
    intro r hr r' hr' he
    obtain ⟨t, k, hk, -, rfl⟩ := hi.mem_started hr
    obtain ⟨t', k', hk', -, rfl⟩ := hi.mem_started hr'
    obtain rfl : t = t' := he
    rw [hk] at hk'
    cases hk'
    rfl
  have hnodup := hi.log.nodup.map_on hidx
  refine ⟨?_, ?_, hnodup, hi.log.nodup.map_on hthread, ?_⟩
  · intro r hr
    obtain ⟨t, k, -, -, rfl⟩ := hi.mem_started hr
    exact ⟨rfl, rfl⟩
  · intro r hr
    obtain ⟨t, k, hk, hb, rfl⟩ := hi.mem_started hr
    exact busy_range (hi.idx_le hk) hb
  · refine (List.pairwise_map.1 hnodup).imp_of_mem ?_
    intro r r' hr hr' hne
    obtain ⟨t, k, -, -, rfl⟩ := hi.mem_started hr
    obtain ⟨t', k', -, -, rfl⟩ := hi.mem_started hr'
    dsimp only [sliceCall] at hne ⊢
    rw [sliceRange_eq, sliceRange_eq]
    rcases Nat.lt_or_gt_of_ne hne with h | h
    · exact .inl (bound_mono _ _ h)
    · exact .inr (bound_mono _ _ h)

/-- When all workers are done every index below `w` belongs to one of them. -/
theorem Inv.exists_worker (hi : Inv s st) (hdone : ∀ i, ∃ k, st (some i) = .done k) {k : Nat} (hk : k < w) :
    ∃ i, st (some i) = .done k := by
  choose f hf using hdone
  have hlt : ∀ i, f i < w := fun i => hi.idx_lt i (f i) (by rw [hf i]; rfl)
  have hinj : Function.Injective fun i => (⟨f i, hlt i⟩ : Fin w) := by
    intro i j h
    have hij : f i = f j := congrArg Fin.val h
    exact hi.idx_inj i j (f i) (by rw [hf i]; rfl) (by rw [hf j, hij]; rfl)
  obtain ⟨i, h⟩ := (Finite.injective_iff_surjective.1 hinj) ⟨k, hk⟩
  have hik : f i = k := congrArg Fin.val h
  exact ⟨i, by rw [hf i, hik]⟩

theorem Inv.exact (hi : Inv s st) (hd : s.disp.stage w = .ran w) (hdone : ∀ i, ∃ k, st (some i) = .done k) :
    Exact s.call s.started s.finished where
  toSound := hi.sound
  cover x hx := by
    rw [← bound_last (Nat.succ_pos w) s.call.total] at hx
    obtain ⟨k, hk, h0, h1⟩ := exists_chunk _ _ (w + 1) hx
    have hb : Busy s.call w k := by
      unfold Busy
      rw [sliceRange_eq]
      rw [bound_last (Nat.succ_pos w)] at hx
      exact Nat.lt_of_le_of_lt h0 hx
    have hthread : ∃ t, (st t).started = some k := by
      rcases Nat.lt_succ_iff_lt_or_eq.1 hk with hk | rfl
      · obtain ⟨i, hi'⟩ := hi.exists_worker hdone hk
        exact ⟨some i, by rw [hi']; rfl⟩
      · exact ⟨none, by rw [hi.disp, hd]; rfl⟩
    obtain ⟨t, ht⟩ := hthread
    refine ⟨sliceCall t k s.call, (hi.log.started_iff _).2 ⟨t, k, ht, hb, rfl⟩, ?_⟩
    dsimp only [sliceCall]
    rw [sliceRange_eq]
    exact ⟨h0, h1⟩
  finished r hr := by
    obtain ⟨t, k, hk, hb, rfl⟩ := (hi.log.started_iff r).1 hr
    refine (hi.log.finished_iff _).2 ⟨t, k, ?_, hb, rfl⟩
    cases t with
    | none => rw [hi.disp, hd] at hk ⊢; exact hk
    | some i =>
      obtain ⟨k', hk'⟩ := hdone i
      rw [hk'] at hk ⊢
      exact hk

/-! ## Every reachable state -/

theorem reachable_returned {blocking : Bool} (h : (threadPool w blocking).Reachable s) :
    ∀ r ∈ s.past, Exact r.call r.started r.finished := by
  refine h.invariant (I := fun s => ∀ r ∈ s.past, Exact r.call r.started r.finished) nofun ?_
  intro s1 a s2 hr ih hstep
  cases a with
  | disp =>
    rcases (dispatchStep_frame hstep).past with hp | ⟨hd, hp⟩
    · rw [hp]; exact ih
    · rw [hp]
      intro r hr'
      rcases List.mem_cons.1 hr' with rfl | hr'
      · obtain ⟨st, hi⟩ := reachable_inv hr
        exact hi.exact (by rw [hd]; rfl) (hi.settled (.inr hd))
      · exact ih r hr'
  | work i => rw [(workerStep_frame hstep).past]; exact ih
  | dispatch c =>
    change beginStep s1 c = some s2 at hstep
    unfold beginStep at hstep
    split_ifs at hstep <;> cases hstep <;> exact ih
  | spuriousDisp | spuriousWork =>
    unfold threadPool poolStep at hstep
    dsimp only at hstep
    split_ifs at hstep
    cases hstep
    exact ih

theorem Inv.idle_done (hi : Inv s st) (hd : s.disp = .idle) (i : Fin w) : ∃ k, st (some i) = .done k := by
  have hr := (hi.workers i).not_live (by rw [hd]; decide)
  rw [hd] at hr
  exact hr.2

/-- While the dispatching thread sleeps, the worker that is to wake it is awake. -/
theorem Inv.awake (hi : Inv s st) (hw : WaitOk s) (hd : s.disp = .asleep) : ∃ i, (s.workers i).pc ≠ .asleep := by
  rcases hw.disp hd with hr | ⟨i, hsig⟩
  · by_contra hall
    push Not at hall
    -- a sleeping worker has seen the epoch, so it is done; but then nothing remains
    have hdone : ∀ i, Stage.isOpen (ofWorkers st i) = false := by
      intro i
      have hok := hi.workers i
      rw [hall i, hd] at hok
      rcases hok with ⟨-, k, hk⟩ | ⟨hne, -⟩
      · unfold ofWorkers; rw [hk]; rfl
      · rcases hw.worker i (hall i) hne with h | h <;> rw [hd] at h <;> cases h
    have hz := (tally_eq_zero Stage.isOpen (ofWorkers st)).2 hdone
    rw [hi.remainingSet (by rw [hd]; decide), hz] at hr
    exact hr rfl
  · exact ⟨i, by rcases hsig with h | h <;> rw [h] <;> simp⟩

/-- The holder of the mutex can go on; without one every thread that is not asleep can. -/
theorem Inv.progress {blocking : Bool} (hi : Inv s st) (hw : WaitOk s) (hd : s.disp ≠ .idle) :
    (Pool.dispatchStep blocking s).isSome ∨ ∃ i, (Pool.workerStep blocking s i).isSome := by
  have hworker : ∀ i, (s.mutex = none → (s.workers i).pc ≠ .asleep) → (s.mutex ≠ none → (s.workers i).pc.holds) →
      (Pool.workerStep blocking s i).isSome := by
    intro i hfree hheld
    unfold Pool.workerStep
    by_cases hm : s.mutex = none
    · cases hpc : (s.workers i).pc <;> simp only [hm] <;> (try split_ifs) <;> first | rfl | exact absurd hpc (hfree hm)
    · have hh := hheld hm
      cases hpc : (s.workers i).pc <;> rw [hpc] at hh <;> dsimp only <;> (try split_ifs) <;> first | rfl | cases hh
  cases hm : s.mutex with
  | none =>
    by_cases ha : s.disp = .asleep
    · obtain ⟨i, hi'⟩ := hi.awake hw ha
      exact .inr ⟨i, hworker i (fun _ => hi') fun h => absurd hm h⟩
    · left
      unfold Pool.dispatchStep
      cases hdp : s.disp <;> simp only [hm] <;> (try split_ifs) <;> first | rfl | exact absurd hdp hd | exact absurd hdp ha
  | some t =>
    cases t with
    | none =>
      left
      have hh := hw.holderDisp hm
      unfold Pool.dispatchStep
      cases hdp : s.disp <;> rw [hdp] at hh <;> dsimp only <;> (try split_ifs) <;> first | rfl | cases hh
    | some i =>
      refine .inr ⟨i, hworker i (fun h => ?_) fun _ => hw.holder i hm⟩
      rw [hm] at h; cases h

end

/-- For every number of workers, both waiting modes, every sequence of dispatches and every
interleaving: slices are dispatched exactly once, and no wakeup is lost. -/
theorem threadpool_dispatch_ok (w : Nat) (blocking : Bool) (s : ThreadPool w) (h : (threadPool w blocking).Reachable s) :
    DispatchOk blocking s := by
  obtain ⟨st, hi⟩ := reachable_inv h
  have hw := reachable_waitOk h
  refine ⟨hi.sound, reachable_returned h, fun hd => ?_, hi.awake hw, fun i ha hb hb' => ?_, hi.progress hw⟩
  · exact hi.exact (by rw [hd]; rfl) (hi.idle_done hd)
  · by_contra hne
    rcases hw.worker i ha hne with hd | hd
    · exact hb hd
    · exact hb' hd

/-- With one worker: it falls asleep, three indices are dispatched, both slices run, the call returns. -/
def oneWorkerRun : List (Action 1) :=
  [.work 0, .work 0, .work 0, .dispatch ⟨7, 9, 3⟩] ++ List.replicate 9 .disp ++ List.replicate 10 (.work 0) ++
    [.disp, .disp, .disp, .disp] ++ List.replicate 4 (.work 0) ++ [.disp, .disp, .disp, .disp]

theorem threadpool_dispatch_ok_one :
    ∃ s, (threadPool 1 true).run (threadpoolCreate 1) oneWorkerRun = some s ∧ s.disp = .idle ∧
      s.past.map Returned.started = [[⟨none, 7, 9, 1, 2, 3⟩, ⟨some 0, 7, 9, 0, 0, 2⟩]] ∧ DispatchOk true s := by
  have hrun : ∃ s, (threadPool 1 true).run (threadpoolCreate 1) oneWorkerRun = some s ∧ s.disp = .idle ∧
      s.past.map Returned.started = [[⟨none, 7, 9, 1, 2, 3⟩, ⟨some 0, 7, 9, 0, 0, 2⟩]] := ⟨_, rfl, rfl, rfl⟩
  obtain ⟨s, hs, hidle, hpast⟩ := hrun
  exact ⟨s, hs, hidle, hpast, threadpool_dispatch_ok 1 true s (System.Reachable.init.run hs)⟩

end BitForge.Pool
