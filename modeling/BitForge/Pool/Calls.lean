/-
The calls of the task function: which call each thread is in, and how the steps of the pool enter
and leave calls.
-/
import BitForge.Pool.Dispatch

namespace BitForge.Pool

open BitForge.Lib

section

variable {w : Nat}

/-- The call of the task function that a worker at `pc` is in. -/
def WorkerPc.call (i : Fin w) : WorkerPc → Option (SliceCall w)
  | .running idx task => some (sliceCall (some i) idx task)
  | _ => none

/-- The call of the task function that a thread is in. -/
def ThreadPool.current (s : ThreadPool w) : Option (Fin w) → Option (SliceCall w)
  | none => if s.disp = .running then some (sliceCall none w s.call) else none
  | some i => (s.workers i).pc.call i

/-- The thread that takes the action. -/
def Action.thread : Action w → Option (Option (Fin w))
  | .disp => some none
  | .work i => some (some i)
  | _ => none

/-! ## What a step of the pool does to the calls of the task function -/

/-- A step that enters and leaves no call. -/
structure Quiet (s s' : ThreadPool w) : Prop where
  started : s'.started = s.started
  finished : s'.finished = s.finished
  current : s'.current = s.current
  call : s'.call = s.call

/-- The thread `t` enters the call `c`. -/
structure Enters (s s' : ThreadPool w) (t : Option (Fin w)) (c : SliceCall w) : Prop where
  started : s'.started = c :: s.started
  finished : s'.finished = s.finished
  free : s.current t = none
  current : s'.current = Function.update s.current t (some c)
  call : s'.call = s.call

/-- The thread `t` leaves the call `c`. -/
structure Leaves (s s' : ThreadPool w) (t : Option (Fin w)) (c : SliceCall w) : Prop where
  started : s'.started = s.started
  finished : s'.finished = c :: s.finished
  busy : s.current t = some c
  current : s'.current = Function.update s.current t none
  call : s'.call = s.call

variable {s s' : ThreadPool w} {blocking : Bool}

theorem current_eq (hd : s'.disp = .running ↔ s.disp = .running) (hc : s'.call = s.call)
    (hw : ∀ i, (s'.workers i).pc.call i = (s.workers i).pc.call i) : s'.current = s.current := by
  funext t
  cases t with
  | none => unfold ThreadPool.current; simp only [hd, hc]
  | some i => exact hw i

/-- A worker outside its slice moves to another point outside it. -/
theorem quiet_work {i : Fin w} {wk : Worker} (hw : s'.workers = Function.update s.workers i wk)
    (hpc : (s.workers i).pc.call i = none) (hwk : wk.pc.call i = none) (hd : s'.disp = .running ↔ s.disp = .running)
    (hc : s'.call = s.call) (hs : s'.started = s.started) (hf : s'.finished = s.finished) : Quiet s s' where
  started := hs
  finished := hf
  call := hc
  current := by
    refine current_eq hd hc fun j => ?_
    rw [hw]
    by_cases hj : j = i
    · subst hj; rw [Function.update_self, hpc, hwk]
    · rw [Function.update_of_ne hj]

/-- A worker enters or leaves its slice. -/
theorem current_work {i : Fin w} {wk : Worker} {x : Option (SliceCall w)}
    (hw : s'.workers = Function.update s.workers i wk) (hd : s'.disp = s.disp) (hc : s'.call = s.call)
    (hx : wk.pc.call i = x) : s'.current = Function.update s.current (some i) x := by
  funext t
  unfold ThreadPool.current
  by_cases ht : t = some i
  · subst ht; rw [Function.update_self]; dsimp only; rw [hw, Function.update_self, hx]
  · rw [Function.update_of_ne ht]
    cases t with
    | none => simp only [hd, hc]
    | some j => dsimp only; rw [hw, Function.update_of_ne fun hj => ht (congrArg some hj)]

theorem workerStep_calls {i : Fin w} (h : workerStep blocking s i = some s') :
    Quiet s s' ∨ (∃ c, Enters s s' (some i) c) ∨ ∃ c, Leaves s s' (some i) c := by
  unfold workerStep at h
  cases hpc : (s.workers i).pc with
  | asleep => simp only [hpc] at h; cases h
  | slice idx task =>
    simp only [hpc] at h
    split_ifs at h <;> cases h
    · exact .inr (.inl ⟨_, rfl, rfl, by unfold ThreadPool.current; dsimp only; rw [hpc]; rfl,
        current_work rfl rfl rfl rfl, rfl⟩)
    · exact .inl (quiet_work rfl (by rw [hpc]; rfl) rfl Iff.rfl rfl rfl rfl)
  | running idx task =>
    simp only [hpc] at h
    cases h
    exact .inr (.inr ⟨_, rfl, rfl, by unfold ThreadPool.current; dsimp only; rw [hpc]; rfl,
      current_work rfl rfl rfl rfl, rfl⟩)
  | signal =>
    simp only [hpc] at h
    cases h
    refine .inl (quiet_work rfl (by rw [hpc]; rfl) rfl ?_ rfl rfl rfl)
    change (if s.disp = .asleep then DispPc.woken else s.disp) = .running ↔ _
    split_ifs with hd
    · rw [hd]; simp
    · exact Iff.rfl
  | top =>
    simp only [hpc] at h
    cases h
    refine .inl (quiet_work rfl (by rw [hpc]; rfl) ?_ Iff.rfl rfl rfl rfl)
    cases blocking <;> rfl
  | decrement =>
    simp only [hpc] at h
    cases h
    refine .inl (quiet_work rfl (by rw [hpc]; rfl) ?_ Iff.rfl rfl rfl rfl)
    dsimp only
    split_ifs <;> rfl
  | spin | lock | check | woken | reload | unlock | claim | readTotal | readFn | readArg | sigLock | sigUnlock =>
    simp only [hpc] at h
    (try split_ifs at h) <;> cases h <;> exact .inl (quiet_work rfl (by rw [hpc]; rfl) rfl Iff.rfl rfl rfl rfl)

/-- The dispatching thread moves on outside its slice. -/
theorem quiet_disp (hd : s.disp ≠ .running) (hd' : s'.disp ≠ .running)
    (hw : ∀ i, (s'.workers i).pc.call i = (s.workers i).pc.call i)
    (hc : s'.call = s.call) (hs : s'.started = s.started) (hf : s'.finished = s.finished) : Quiet s s' :=
  ⟨hs, hf, current_eq ⟨fun h => absurd h hd', fun h => absurd h hd⟩ hc hw, hc⟩

theorem wakeAll_call (workers : Fin w → Worker) (i : Fin w) :
    (wakeAll workers i).pc.call i = (workers i).pc.call i := by
  unfold wakeAll
  split_ifs with ha
  · rw [ha]; rfl
  · rfl

theorem afterSlice_ne_running (w : Nat) (blocking : Bool) : afterSlice w blocking ≠ .running := by
  unfold afterSlice; split_ifs <;> simp

/-- The dispatching thread enters or leaves its slice. -/
theorem current_disp {x : Option (SliceCall w)} (hw : s'.workers = s.workers)
    (hx : s'.current none = x) :
    s'.current = Function.update s.current none x := by
  funext t
  cases t with
  | none => rw [Function.update_self, hx]
  | some i => rw [Function.update_of_ne (by simp)]; unfold ThreadPool.current; dsimp only; rw [hw]

theorem dispatchStep_calls (h : dispatchStep blocking s = some s') :
    Quiet s s' ∨ (∃ c, Enters s s' none c) ∨ ∃ c, Leaves s s' none c := by
  unfold dispatchStep at h
  cases hd : s.disp with
  | idle | asleep => simp only [hd] at h; cases h
  | slice =>
    simp only [hd] at h
    split_ifs at h <;> cases h
    · exact .inr (.inl ⟨_, rfl, rfl, if_neg (by rw [hd]; decide),
        current_disp rfl (by unfold ThreadPool.current; exact if_pos rfl), rfl⟩)
    · exact .inl (quiet_disp (by rw [hd]; decide) (afterSlice_ne_running w blocking) (fun _ => rfl) rfl rfl rfl)
  | running =>
    simp only [hd] at h
    cases h
    exact .inr (.inr ⟨_, rfl, rfl, if_pos hd, 
      current_disp rfl (by unfold ThreadPool.current; exact if_neg (afterSlice_ne_running w blocking)), rfl⟩)
  | broadcast =>
    simp only [hd] at h
    cases h
    exact .inl (quiet_disp (by rw [hd]; decide) (by simp) (wakeAll_call s.workers) rfl rfl rfl)
  | setRemaining =>
    simp only [hd] at h
    cases h
    refine .inl (quiet_disp (by rw [hd]; decide) ?_ (fun _ => rfl) rfl rfl rfl)
    dsimp only
    split_ifs <;> simp
  | setFn | setArg | setTotal | setClaimed | incEpoch | bcastLock | bcastUnlock | spin | lock | check | woken
  | unlock | ret =>
    simp only [hd] at h
    (try split_ifs at h) <;> cases h <;>
      exact .inl (quiet_disp (by rw [hd]; simp) (by simp) (fun _ => rfl) rfl rfl rfl)

/-- A step of the pool that is not the begin of a dispatch. -/
structure PoolMove (s s' : ThreadPool w) (t : Option (Option (Fin w))) : Prop where
  calls : Quiet s s' ∨ (∃ u c, t = some u ∧ Enters s s' u c) ∨ ∃ u c, t = some u ∧ Leaves s s' u c
  disp : (s.disp = .ret ∧ s'.disp = .idle) ∨ (s'.disp = .idle ↔ s.disp = .idle)

theorem poolStep_move {a : Action w} (h : poolStep blocking s a = some s') (ha : ∀ c, a ≠ .dispatch c) :
    PoolMove s s' a.thread := by
  cases a with
  | dispatch c => exact absurd rfl (ha c)
  | disp =>
    refine ⟨?_, ?_⟩
    · rcases dispatchStep_calls h with hq | ⟨c, hc⟩ | ⟨c, hc⟩
      · exact .inl hq
      · exact .inr (.inl ⟨none, c, rfl, hc⟩)
      · exact .inr (.inr ⟨none, c, rfl, hc⟩)
    · change dispatchStep blocking s = some s' at h
      unfold dispatchStep at h
      cases hd : s.disp with
      | idle | asleep => simp only [hd] at h; cases h
      | ret => simp only [hd] at h; cases h; exact .inl ⟨rfl, rfl⟩
      | slice | running =>
        simp only [hd] at h
        unfold afterSlice at h
        split_ifs at h <;> cases h <;> exact .inr (by simp)
      | setRemaining =>
        simp only [hd] at h
        cases h
        right
        dsimp only
        split_ifs <;> simp
      | _ =>
        simp only [hd] at h
        (try split_ifs at h) <;> cases h <;> exact .inr (by simp)
  | work i =>
    refine ⟨?_, ?_⟩
    · rcases workerStep_calls h with hq | ⟨c, hc⟩ | ⟨c, hc⟩
      · exact .inl hq
      · exact .inr (.inl ⟨some i, c, rfl, hc⟩)
      · exact .inr (.inr ⟨some i, c, rfl, hc⟩)
    · rcases (workerStep_frame h).disp with hd | ⟨hd, hd'⟩
      · exact .inr (by rw [hd])
      · exact .inr (by rw [hd, hd']; simp)
  | spuriousDisp =>
    unfold poolStep at h
    dsimp only at h
    split_ifs at h with hd
    cases h
    exact ⟨.inl (quiet_disp (by rw [hd]; decide) (by simp) (fun _ => rfl) rfl rfl rfl), .inr (by rw [hd]; simp)⟩
  | spuriousWork i =>
    unfold poolStep at h
    dsimp only at h
    split_ifs at h with hpc
    cases h
    exact ⟨.inl (quiet_work rfl (by rw [hpc]; rfl) rfl Iff.rfl rfl rfl rfl), .inr Iff.rfl⟩

/-! ## The calls of a reachable pool -/

/-- The calls that threads are in are started and not finished, and the slices lie apart. -/
structure CallsOk (s : ThreadPool w) : Prop where
  current : ∀ t c, s.current t = some c → c ∈ s.started ∧ c ∉ s.finished ∧ c.thread = t
  finished : ∀ c ∈ s.finished, c ∈ s.started
  apart : ∀ c ∈ s.started, ∀ c' ∈ s.started, c ≠ c' → c.stop ≤ c'.start ∨ c'.stop ≤ c.start
  nodup : s.started.Nodup
  sound : Sound s.call s.started

variable {st : Option (Fin w) → Stage}

/-- A thread in a call is in the stage `running`. -/
theorem Inv.running (hi : Inv s st) {t : Option (Fin w)} {c : SliceCall w} (h : s.current t = some c) :
    ∃ k, st t = .running k ∧ c = sliceCall t k s.call := by
  cases t with
  | none =>
    unfold ThreadPool.current at h
    dsimp only at h
    split_ifs at h with hd
    cases h
    exact ⟨w, by rw [hi.disp, hd]; rfl, rfl⟩
  | some i =>
    have hw := hi.workers i
    change (s.workers i).pc.call i = some c at h
    cases hpc : (s.workers i).pc with
    | running idx task =>
      rw [hpc] at h hw
      cases h
      obtain ⟨-, -, hst, rfl⟩ := hw
      exact ⟨idx, hst, rfl⟩
    | _ => rw [hpc] at h; cases h

theorem Inv.callsOk (hi : Inv s st) : CallsOk s where
  current t c h := by
    obtain ⟨k, hk, rfl⟩ := hi.running h
    refine ⟨(hi.log.started_iff _).2 ⟨t, k, by rw [hk]; rfl, hi.log.busy t k hk, rfl⟩, fun hf => ?_, rfl⟩
    obtain ⟨u, j, hu, -, he⟩ := (hi.log.finished_iff _).1 hf
    obtain rfl : t = u := congrArg SliceCall.thread he
    rw [hk] at hu
    cases hu
  finished c h := by
    obtain ⟨t, k, hk, hb, rfl⟩ := (hi.log.finished_iff c).1 h
    refine (hi.log.started_iff _).2 ⟨t, k, ?_, hb, rfl⟩
    cases hst : st t <;> rw [hst] at hk <;> first | exact hk | cases hk
  apart := by
    have hsymm : Std.Symm fun r r' : SliceCall w => r.stop ≤ r'.start ∨ r'.stop ≤ r.start := ⟨fun _ _ h => h.symm⟩
    exact fun c hc c' hc' hne => hi.sound.disjoint.forall hc hc' hne
  nodup := hi.log.nodup
  sound := hi.sound

end

end BitForge.Pool
