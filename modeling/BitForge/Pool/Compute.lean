/-
The pool at work: while a thread is in the task function it takes the rows of its slice, one
memory step at a time, and the steps of all threads interleave; between its dispatches the
dispatching thread runs serial code. Whatever the number of threads, the way they wait and the
interleaving, the memory after every return is that of the rows taken one after another.
-/
import BitForge.Lib.RowTask
import BitForge.Pool.Calls

namespace BitForge.Pool

open BitForge.Lib

/-- What the dispatching thread does, seen from outside. -/
inductive Event (κ β : Type)
  | serial (f : (κ → β) → κ → β)
  | dispatch (c : Call)

/-- The pool, the memory it works on and the loop variables of the threads that are in the task
function. The events so far (newest first) are recorded to be spoken about; no step reads them. -/
structure Computation (w : Nat) (κ β : Type) where
  pool : ThreadPool w
  mem : κ → β
  row : Option (Fin w) → Nat
  micro : Option (Fin w) → Nat
  program : List (Event κ β)

inductive Move (w : Nat) (κ β : Type)
  | pool (a : Action w)
  | compute (t : Option (Fin w))
  | serial (f : (κ → β) → κ → β)

/-- A step that a thread within a dispatch makes by itself: no wait ends that nobody has ended. -/
def Move.Own {w : Nat} {κ β : Type} : Move w κ β → Prop
  | .compute _ | .pool .disp | .pool (.work _) => True
  | _ => False

section

variable {w : Nat} {κ β : Type}

/-- The thread has rows left to take. -/
def Computation.inRows (s : Computation w κ β) (t : Option (Fin w)) : Bool :=
  (s.pool.current t).any fun c => s.row t < c.stop

/-- A dispatch without a function or work does nothing. -/
def record (program : List (Event κ β)) : Action w → List (Event κ β)
  | .dispatch c => if c.fn = 0 ∨ c.total = 0 then program else .dispatch c :: program
  | _ => program

/-- The pool moves on to `p`; a thread that enters its call is before the first row. -/
def Computation.enter (s : Computation w κ β) (a : Action w) (p : ThreadPool w) : Computation w κ β :=
  { s with
    pool := p
    program := record s.program a
    row := fun t => match s.pool.current t, p.current t with
      | none, some c => c.start
      | _, _ => s.row t
    micro := fun t => match s.pool.current t, p.current t with
      | none, some _ => 0
      | _, _ => s.micro t }

variable (tasks : Nat → Nat → RowTask κ β)

/-- One step of the thread `t` in the task function: of the body of its row, or to the next row. -/
def rowStep (s : Computation w κ β) (t : Option (Fin w)) : Option (Computation w κ β) :=
  match s.pool.current t with
  | none => none
  | some c =>
    if s.row t < c.stop then
      if s.micro t < (tasks c.fn c.arg).len (s.row t) then
        some { s with
          mem := (tasks c.fn c.arg).step (s.row t) (s.micro t) s.mem
          micro := Function.update s.micro t (s.micro t + 1) }
      else some { s with row := Function.update s.row t (s.row t + 1), micro := Function.update s.micro t 0 }
    else none

def computeStep (blocking : Bool) (s : Computation w κ β) : Move w κ β → Option (Computation w κ β)
  | .pool a =>
    if a.thread.any s.inRows then none
    else (poolStep blocking s.pool a).map (s.enter a)
  | .compute t => rowStep tasks s t
  | .serial f =>
    if s.pool.disp = .idle then some { s with mem := f s.mem, program := .serial f :: s.program } else none

/-- The pool with `w + 1` threads at work on the memory `m0`. -/
def computation (w : Nat) (blocking : Bool) (m0 : κ → β) : System (Computation w κ β) (Move w κ β) :=
  { init := ⟨threadpoolCreate w, m0, fun _ => 0, fun _ => 0, []⟩
    step := computeStep tasks blocking }

/-- The events one after another, without threads. -/
def replay (m0 : κ → β) : List (Event κ β) → κ → β
  | [] => m0
  | .serial f :: es => f (replay m0 es)
  | .dispatch c :: es => (tasks c.fn c.arg).sequential (replay m0 es) c.total

/-! ## The rows of a dispatch -/

/-- `p` says how far each row has come. -/
structure Rows (T : RowTask κ β) (s : Computation w κ β) (p : Nat → Nat) : Prop where
  finished : ∀ c ∈ s.pool.finished, ∀ r, c.start ≤ r → r < c.stop → p r = T.len r
  behind : ∀ t c, s.pool.current t = some c → ∀ r, c.start ≤ r → r < s.row t → r < c.stop → p r = T.len r
  here : ∀ t c, s.pool.current t = some c → s.row t < c.stop →
    c.start ≤ s.row t ∧ p (s.row t) = s.micro t ∧ s.micro t ≤ T.len (s.row t)
  ahead : ∀ t c, s.pool.current t = some c → ∀ r, s.row t < r → r < c.stop → p r = 0
  fresh : ∀ r, (∀ c ∈ s.pool.started, c.start ≤ r → c.stop ≤ r) → p r = 0

variable {tasks} {T : RowTask κ β} {s : Computation w κ β} {p : Nat → Nat} {t : Option (Fin w)} {c : SliceCall w}

/-- The row a thread is at lies in no other slice. -/
theorem Rows.row_apart (h : Rows T s p) (hok : CallsOk s.pool) (hc : s.pool.current t = some c) (hr : s.row t < c.stop)
    {c' : SliceCall w} (hc' : c' ∈ s.pool.started) (hne : c' ≠ c) {r : Nat} (h0 : c'.start ≤ r) (h1 : r < c'.stop) :
    r ≠ s.row t := by
  have h2 := (h.here t c hc hr).1
  rcases hok.apart c' hc' c (hok.current t c hc).1 hne with h3 | h3 <;> omega

/-- The calls of two threads are different. -/
theorem CallsOk.ne {s : ThreadPool w} (hok : CallsOk s) {t' : Option (Fin w)} {c' : SliceCall w}
    (hc : s.current t = some c) (hc' : s.current t' = some c') (hne : t' ≠ t) : c' ≠ c := by
  rintro rfl
  exact hne ((hok.current t' c' hc').2.2.symm.trans (hok.current t c' hc).2.2)

/-- A step of the body of a row. -/
theorem Rows.micro (h : Rows T s p) (hok : CallsOk s.pool) (hc : s.pool.current t = some c) (hr : s.row t < c.stop)
    (hm : s.micro t < T.len (s.row t)) (m : κ → β) :
    Rows T { s with mem := m, micro := Function.update s.micro t (s.micro t + 1) }
      (Function.update p (s.row t) (s.micro t + 1)) where
  finished c' hc' r h0 h1 := by
    have hne : c' ≠ c := by rintro rfl; exact (hok.current t c' hc).2.1 hc'
    rw [Function.update_of_ne (h.row_apart hok hc hr (hok.finished c' hc') hne h0 h1)]
    exact h.finished c' hc' r h0 h1
  behind t' c' hc' r h0 h1 h2 := by
    have hrow : r ≠ s.row t := by
      by_cases ht : t' = t
      · subst ht; exact Nat.ne_of_lt h1
      · exact h.row_apart hok hc hr (hok.current t' c' hc').1 (hok.ne hc hc' ht) h0 h2
    rw [Function.update_of_ne hrow]
    exact h.behind t' c' hc' r h0 h1 h2
  here t' c' hc' h1 := by
    dsimp only at hc' h1 ⊢
    obtain ⟨h0, hp, hle⟩ := h.here t' c' hc' h1
    refine ⟨h0, ?_⟩
    by_cases ht : t' = t
    · subst ht
      rw [Function.update_self, Function.update_self]
      exact ⟨rfl, hm⟩
    · rw [Function.update_of_ne ht,
        Function.update_of_ne (h.row_apart hok hc hr (hok.current t' c' hc').1 (hok.ne hc hc' ht) h0 h1)]
      exact ⟨hp, hle⟩
  ahead t' c' hc' r h1 h2 := by
    dsimp only at hc' h1
    have hrow : r ≠ s.row t := by
      by_cases ht : t' = t
      · subst ht; exact (Nat.ne_of_lt h1).symm
      · exact h.row_apart hok hc hr (hok.current t' c' hc').1 (hok.ne hc hc' ht)
          ((h.here t' c' hc' (h1.trans h2)).1.trans h1.le) h2
    rw [Function.update_of_ne hrow]
    exact h.ahead t' c' hc' r h1 h2
  fresh r hr' := by
    have hrow : r ≠ s.row t := by
      rintro rfl
      exact absurd (hr' c (hok.current t c hc).1 (h.here t c hc hr).1) (Nat.not_le_of_lt hr)
    rw [Function.update_of_ne hrow]
    exact h.fresh r hr'

/-- From a row that is through to the next. -/
theorem Rows.next (h : Rows T s p) (hc : s.pool.current t = some c) (hr : s.row t < c.stop)
    (hm : ¬ s.micro t < T.len (s.row t)) :
    Rows T { s with row := Function.update s.row t (s.row t + 1), micro := Function.update s.micro t 0 } p where
  finished := h.finished
  fresh := h.fresh
  behind t' c' hc' r h0 h1 h2 := by
    dsimp only at hc' h1
    by_cases ht : t' = t
    · subst ht
      rw [Function.update_self] at h1
      obtain rfl : c = c' := Option.some.inj (hc.symm.trans hc')
      obtain ⟨-, hp, hle⟩ := h.here t' c hc hr
      rcases Nat.lt_succ_iff_lt_or_eq.1 h1 with h1 | rfl
      · exact h.behind t' c hc r h0 h1 h2
      · omega
    · rw [Function.update_of_ne ht] at h1
      exact h.behind t' c' hc' r h0 h1 h2
  here t' c' hc' h1 := by
    dsimp only at hc' h1 ⊢
    by_cases ht : t' = t
    · subst ht
      rw [Function.update_self] at h1
      rw [Function.update_self, Function.update_self]
      obtain rfl : c = c' := Option.some.inj (hc.symm.trans hc')
      exact ⟨(h.here t' c hc hr).1.trans (Nat.le_succ _), h.ahead t' c hc _ (Nat.lt_succ_self _) h1, Nat.zero_le _⟩
    · rw [Function.update_of_ne ht] at h1
      rw [Function.update_of_ne ht, Function.update_of_ne ht]
      exact h.here t' c' hc' h1
  ahead t' c' hc' r h1 h2 := by
    dsimp only at hc' h1
    by_cases ht : t' = t
    · subst ht
      rw [Function.update_self] at h1
      exact h.ahead t' c' hc' r ((Nat.lt_succ_self _).trans h1) h2
    · rw [Function.update_of_ne ht] at h1
      exact h.ahead t' c' hc' r h1 h2

variable {q : ThreadPool w} {a : Action w}

theorem enter_row (h : q.current t = s.pool.current t) : (s.enter a q).row t = s.row t := by
  unfold Computation.enter
  dsimp only
  rw [h]
  cases s.pool.current t <;> rfl

theorem enter_micro (h : q.current t = s.pool.current t) : (s.enter a q).micro t = s.micro t := by
  unfold Computation.enter
  dsimp only
  rw [h]
  cases s.pool.current t <;> rfl

theorem enter_row_new (h : s.pool.current t = none) (hc : q.current t = some c) : (s.enter a q).row t = c.start := by
  unfold Computation.enter
  dsimp only
  rw [h, hc]

theorem enter_micro_new (h : s.pool.current t = none) (hc : q.current t = some c) : (s.enter a q).micro t = 0 := by
  unfold Computation.enter
  dsimp only
  rw [h, hc]

/-- The rows are where they were when the threads still in a call are in the same call. -/
theorem Rows.keep (h : Rows T s p) (hcur : ∀ t c, q.current t = some c → s.pool.current t = some c)
    (hfin : ∀ c ∈ q.finished, ∀ r, c.start ≤ r → r < c.stop → p r = T.len r)
    (hstart : q.started = s.pool.started) : Rows T (s.enter a q) p where
  finished := hfin
  behind t c hc r h0 h1 h2 := by
    have heq : q.current t = s.pool.current t := hc.trans (hcur t c hc).symm
    rw [enter_row heq] at h1
    exact h.behind t c (hcur t c hc) r h0 h1 h2
  here t c hc h1 := by
    have heq : q.current t = s.pool.current t := hc.trans (hcur t c hc).symm
    rw [enter_row heq] at h1
    rw [enter_row heq, enter_micro heq]
    exact h.here t c (hcur t c hc) h1
  ahead t c hc r h1 h2 := by
    have heq : q.current t = s.pool.current t := hc.trans (hcur t c hc).symm
    rw [enter_row heq] at h1
    exact h.ahead t c (hcur t c hc) r h1 h2
  fresh r hr := h.fresh r (by rw [← hstart]; exact hr)

theorem Rows.quiet (h : Rows T s p) (hq : Quiet s.pool q) : Rows T (s.enter a q) p :=
  h.keep (fun t c hc => by rw [← hq.current]; exact hc) (by rw [hq.finished]; exact h.finished) hq.started

/-- A thread leaves its call with all rows of the slice through. -/
theorem Rows.leave (h : Rows T s p) (hl : Leaves s.pool q t c) (hr : s.inRows t = false) : Rows T (s.enter a q) p := by
  have hge : c.stop ≤ s.row t := by
    unfold Computation.inRows at hr
    rw [hl.busy, Option.any_some] at hr
    exact Nat.le_of_not_lt (of_decide_eq_false hr)
  refine h.keep (fun u c' hc' => ?_) (fun c' hc' r h0 h1 => ?_) hl.started
  · by_cases hu : u = t
    · subst hu; rw [hl.current, Function.update_self] at hc'; cases hc'
    · rwa [hl.current, Function.update_of_ne hu] at hc'
  · rw [hl.finished] at hc'
    rcases List.mem_cons.1 hc' with rfl | hc'
    · exact h.behind t c' hl.busy r h0 (Nat.lt_of_lt_of_le h1 hge) h1
    · exact h.finished c' hc' r h0 h1

/-- A thread enters a call; no row of its slice has begun. -/
theorem Rows.enter (h : Rows T s p) (hok : CallsOk q) (he : Enters s.pool q t c) : Rows T (s.enter a q) p := by
  have hmem : c ∈ q.started := by rw [he.started]; exact List.mem_cons_self
  have hfresh : ∀ r, c.start ≤ r → r < c.stop → p r = 0 := by
    intro r h0 h1
    refine h.fresh r fun c' hc' h2 => ?_
    have hnodup := hok.nodup
    rw [he.started] at hnodup
    have hne : c' ≠ c := by rintro rfl; exact (List.nodup_cons.1 hnodup).1 hc'
    rcases hok.apart c' (by rw [he.started]; exact List.mem_cons_of_mem c hc') c hmem hne with h3 | h3 <;> omega
  have hnew : ∀ c', q.current t = some c' → c' = c ∧ (s.enter a q).row t = c.start ∧ (s.enter a q).micro t = 0 := by
    intro c' hc'
    have hcc : q.current t = some c := by rw [he.current, Function.update_self]
    exact ⟨Option.some.inj (hc'.symm.trans hcc), enter_row_new he.free hcc, enter_micro_new he.free hcc⟩
  have hold : ∀ u, u ≠ t → q.current u = s.pool.current u := by
    intro u hu
    rw [he.current, Function.update_of_ne hu]
  refine ⟨?_, fun u c' hc' r h0 h1 h2 => ?_, fun u c' hc' h1 => ?_, fun u c' hc' r h1 h2 => ?_, fun r hr => ?_⟩
  · change ∀ c ∈ q.finished, _
    rw [he.finished]
    exact h.finished
  · by_cases hu : u = t
    · subst hu
      obtain ⟨rfl, hrow, -⟩ := hnew c' hc'
      omega
    · rw [enter_row (hold u hu)] at h1
      exact h.behind u c' ((hold u hu).symm.trans hc') r h0 h1 h2
  · by_cases hu : u = t
    · subst hu
      obtain ⟨rfl, hrow, hmicro⟩ := hnew c' hc'
      rw [hrow] at h1
      rw [hrow, hmicro, hfresh _ (Nat.le_refl _) h1]
      exact ⟨Nat.le_refl _, rfl, Nat.zero_le _⟩
    · rw [enter_row (hold u hu)] at h1
      rw [enter_row (hold u hu), enter_micro (hold u hu)]
      exact h.here u c' ((hold u hu).symm.trans hc') h1
  · by_cases hu : u = t
    · subst hu
      obtain ⟨rfl, hrow, -⟩ := hnew c' hc'
      exact hfresh r (by omega) h2
    · rw [enter_row (hold u hu)] at h1
      exact h.ahead u c' ((hold u hu).symm.trans hc') r h1 h2
  · refine h.fresh r fun c' hc' => hr c' ?_
    change c' ∈ q.started
    rw [he.started]
    exact List.mem_cons_of_mem c hc'

theorem Rows.move (h : Rows T s p) (hok : CallsOk q) {u : Option (Option (Fin w))} (hm : PoolMove s.pool q u)
    (hb : u.any s.inRows = false) : Rows T (s.enter a q) p := by
  rcases hm.calls with hq | ⟨t, c, -, he⟩ | ⟨t, c, rfl, hl⟩
  · exact h.quiet hq
  · exact h.enter hok he
  · exact h.leave hl hb

theorem PoolMove.call {s s' : ThreadPool w} {u : Option (Option (Fin w))} (hm : PoolMove s s' u) : s'.call = s.call := by
  rcases hm.calls with hq | ⟨t, c, -, he⟩ | ⟨t, c, -, hl⟩
  · exact hq.call
  · exact he.call
  · exact hl.call

/-! ## Every reachable state -/

/-- The memory is that of the events so far, the last dispatch as far as its rows have come. -/
structure ComputeOk (tasks : Nat → Nat → RowTask κ β) (blocking : Bool) (m0 : κ → β) (s : Computation w κ β) : Prop where
  reachable : (threadPool w blocking).Reachable s.pool
  idle : s.pool.disp = .idle → s.mem = replay tasks m0 s.program
  busy : s.pool.disp ≠ .idle → ∃ es p, s.program = .dispatch s.pool.call :: es ∧
    (tasks s.pool.call.fn s.pool.call.arg).Progressed (replay tasks m0 es) p s.mem ∧
    Rows (tasks s.pool.call.fn s.pool.call.arg) s p

variable {blocking : Bool} {m0 : κ → β}

theorem ComputeOk.callsOk (h : ComputeOk tasks blocking m0 s) : CallsOk s.pool := by
  obtain ⟨st, hi⟩ := reachable_inv h.reachable
  exact hi.callsOk

/-- A thread that is in a call is in one of the running dispatch. -/
theorem ComputeOk.task (h : ComputeOk tasks blocking m0 s) (hc : s.pool.current t = some c) :
    s.pool.disp ≠ .idle ∧ c.fn = s.pool.call.fn ∧ c.arg = s.pool.call.arg := by
  obtain ⟨hmem, hnot, -⟩ := h.callsOk.current t c hc
  refine ⟨fun hd => ?_, h.callsOk.sound.task c hmem⟩
  obtain ⟨st, hi⟩ := reachable_inv h.reachable
  exact hnot ((hi.exact (by rw [hd]; rfl) (hi.idle_done hd)).finished c hmem)

/-- When the call returns every row is through. -/
theorem ComputeOk.returns (h : ComputeOk tasks blocking m0 s) (hd : s.pool.disp = .ret) :
    s.mem = replay tasks m0 s.program := by
  obtain ⟨es, p, hp, hprog, hrows⟩ := h.busy (by rw [hd]; decide)
  obtain ⟨st, hi⟩ := reachable_inv h.reachable
  have hexact := hi.exact (by rw [hd]; rfl) (hi.settled (.inr hd))
  rw [hp]
  refine hprog.eq_sequential (fun r hr => ?_) fun r hr => ?_
  · obtain ⟨c, hc, h0, h1⟩ := hexact.cover r hr
    exact hrows.finished c (hexact.finished c hc) r h0 h1
  · exact hrows.fresh r fun c hc _ => (hexact.range c hc).2.trans hr

/-- A new dispatch starts from the memory of the events before it. -/
theorem ComputeOk.begins (h : ComputeOk tasks blocking m0 s) {c : Call} (hstep : beginStep s.pool c = some q) :
    ComputeOk tasks blocking m0 (s.enter (.dispatch c) q) := by
  have hreach : (threadPool w blocking).Reachable q := .step (.dispatch c) h.reachable hstep
  unfold beginStep at hstep
  split_ifs at hstep with hd hc
  · cases hstep
    have hprog : (s.enter (.dispatch c) s.pool).program = s.program := if_pos hc
    exact ⟨hreach, fun _ => by rw [hprog]; exact h.idle hd, fun hne => absurd hd hne⟩
  · cases hstep
    have hprog : record s.program (.dispatch (w := w) c) = .dispatch c :: s.program := if_neg hc
    have hnone : ∀ t,
        ({ s.pool with call := c, started := [], finished := [], disp := .setFn } : ThreadPool w).current t = none := by
      intro t
      cases t with
      | none => rfl
      | some i =>
        change s.pool.current (some i) = none
        cases hcur : s.pool.current (some i) with
        | none => rfl
        | some c' => exact absurd hd (h.task hcur).1
    refine ⟨hreach, fun hne => absurd hne (by simp [Computation.enter]), fun _ => ⟨s.program, fun _ => 0, hprog, ?_, ?_⟩⟩
    · change RowTask.Progressed _ _ _ s.mem
      rw [← h.idle hd]
      exact RowTask.Progressed.zero _
    · exact
        { finished := fun c hc => absurd hc List.not_mem_nil
          behind := fun t c hc => (Option.some_ne_none c (hc.symm.trans (hnone t))).elim
          here := fun t c hc => (Option.some_ne_none c (hc.symm.trans (hnone t))).elim
          ahead := fun t c hc => (Option.some_ne_none c (hc.symm.trans (hnone t))).elim
          fresh := fun _ _ => rfl }

/-- A thread in the task function takes a step. -/
theorem ComputeOk.rowStep {s' : Computation w κ β} (h : ComputeOk tasks blocking m0 s)
    (hstep : rowStep tasks s t = some s') : ComputeOk tasks blocking m0 s' := by
  unfold Pool.rowStep at hstep
  cases hc : s.pool.current t with
  | none => rw [hc] at hstep; cases hstep
  | some c =>
    rw [hc] at hstep
    dsimp only at hstep
    obtain ⟨hd, hfn, harg⟩ := h.task hc
    obtain ⟨es, p, hp, hprog, hrows⟩ := h.busy hd
    rw [hfn, harg] at hstep
    split_ifs at hstep with hr hm
    · cases hstep
      exact ⟨h.reachable, fun hi => absurd hi hd, fun _ => ⟨es, _, hp, hprog.step (hrows.here t c hc hr).2.1,
        hrows.micro h.callsOk hc hr hm _⟩⟩
    · cases hstep
      exact ⟨h.reachable, fun hi => absurd hi hd, fun _ => ⟨es, p, hp, hprog, hrows.next hc hr hm⟩⟩

/-- The pool takes a step that begins no dispatch. -/
theorem ComputeOk.move (h : ComputeOk tasks blocking m0 s) (ha : ∀ c, a ≠ .dispatch c)
    (hb : a.thread.any s.inRows = false) (hstep : poolStep blocking s.pool a = some q) :
    ComputeOk tasks blocking m0 (s.enter a q) := by
  have hreach : (threadPool w blocking).Reachable q := .step a h.reachable hstep
  have hm := poolStep_move hstep ha
  have hprog : (s.enter a q).program = s.program := by
    cases a with
    | dispatch c => exact absurd rfl (ha c)
    | _ => rfl
  refine ⟨hreach, fun hd => ?_, fun hd => ?_⟩
  · rw [hprog]
    rcases hm.disp with ⟨hret, -⟩ | hiff
    · exact h.returns hret
    · exact h.idle (hiff.1 hd)
  · rcases hm.disp with ⟨-, hidle⟩ | hiff
    · exact absurd hidle hd
    · obtain ⟨es, p, hp, hpr, hrows⟩ := h.busy fun hi => hd (hiff.2 hi)
      obtain ⟨st, hi⟩ := reachable_inv hreach
      refine ⟨es, p, ?_, ?_, ?_⟩
      · rw [hprog, hp]
        exact congrArg (fun c => Event.dispatch c :: es) hm.call.symm
      · change (tasks q.call.fn q.call.arg).Progressed _ _ _
        rw [hm.call]
        exact hpr
      · change Rows (tasks q.call.fn q.call.arg) _ _
        rw [hm.call]
        exact hrows.move hi.callsOk hm hb

theorem ComputeOk.step {s' : Computation w κ β} {a : Move w κ β} (h : ComputeOk tasks blocking m0 s)
    (hstep : computeStep tasks blocking s a = some s') : ComputeOk tasks blocking m0 s' := by
  unfold computeStep at hstep
  cases a with
  | compute t => exact h.rowStep hstep
  | serial f =>
    dsimp only at hstep
    split_ifs at hstep with hd
    cases hstep
    exact ⟨h.reachable, fun _ => congrArg f (h.idle hd), fun hne => absurd hd hne⟩
  | pool a =>
    dsimp only at hstep
    split_ifs at hstep with hb
    obtain ⟨q, hq, rfl⟩ := Option.map_eq_some_iff.1 hstep
    cases a with
    | dispatch c => exact h.begins hq
    | _ => exact h.move (fun _ hc => by cases hc) (Bool.eq_false_iff.2 hb) hq

theorem reachable_computeOk (h : (computation tasks w blocking m0).Reachable s) : ComputeOk tasks blocking m0 s := by
  refine h.invariant (I := ComputeOk tasks blocking m0) ⟨.init, fun _ => rfl, fun hne => absurd rfl hne⟩ ?_
  intro s1 a s2 _ ih hstep
  exact ih.step hstep

/-- While a dispatch runs some thread can go on by itself. -/
theorem ComputeOk.progress (h : ComputeOk tasks blocking m0 s) (hd : s.pool.disp ≠ .idle) :
    ∃ a : Move w κ β, a.Own ∧ (computeStep tasks blocking s a).isSome := by
  obtain ⟨st, hi⟩ := reachable_inv h.reachable
  -- a thread of the pool that can go on does so, or it still has rows to take
  have hthread : ∀ a t, a.thread = some t → (Move.pool a : Move w κ β).Own → (poolStep blocking s.pool a).isSome →
      ∃ b : Move w κ β, b.Own ∧ (computeStep tasks blocking s b).isSome := by
    intro a t ha hown hstep
    cases hb : s.inRows t with
    | true =>
      refine ⟨.compute t, trivial, ?_⟩
      unfold Computation.inRows at hb
      unfold computeStep Pool.rowStep
      cases hc : s.pool.current t with
      | none => rw [hc] at hb; cases hb
      | some c =>
        rw [hc, Option.any_some] at hb
        simp only [hc, if_pos (of_decide_eq_true hb)]
        split_ifs <;> rfl
    | false =>
      refine ⟨.pool a, hown, ?_⟩
      unfold computeStep
      dsimp only
      rw [ha, Option.any_some, hb, if_neg Bool.false_ne_true, Option.isSome_map]
      exact hstep
  rcases hi.progress (reachable_waitOk h.reachable) hd with hs | ⟨i, hs⟩
  · exact hthread .disp none rfl trivial hs
  · exact hthread (.work i) (some i) rfl trivial hs

end

/-- Whatever the number of threads, the way they wait and the interleaving of their memory steps:
when no dispatch is running the memory is that of the events one after another, and while one is
running some thread can go on by itself. -/
theorem compute_eq_replay {κ β : Type} (tasks : Nat → Nat → RowTask κ β) (w : Nat) (blocking : Bool) (m0 : κ → β)
    (s : Computation w κ β) (h : (computation tasks w blocking m0).Reachable s) :
    (s.pool.disp = .idle → s.mem = replay tasks m0 s.program) ∧
      (s.pool.disp ≠ .idle → ∃ a : Move w κ β, a.Own ∧ (computeStep tasks blocking s a).isSome) :=
  ⟨(reachable_computeOk h).idle, (reachable_computeOk h).progress⟩

/-- Row `r` adds one to cell `r`, twice. -/
def countTask : RowTask Nat Nat where
  owner c := some c
  len _ := 2
  step r _ m := Function.update m r (m r + 1)
  writes _ _ _ _ h := Function.update_of_ne (fun he => h (congrArg some he)) ..
  reads r _ m m' h c hc := by
    obtain rfl := Option.some.inj hc
    rw [Function.update_self, Function.update_self, h c (.inl rfl)]

def worker : Fin 1 := Fin.last 0

/-- With one worker: it is woken, the steps of its two rows interleave with those of the dispatching
thread's one row as `rows` says, and the call returns. -/
def twoThreadMoves (κ β : Type) (rows : List (Option (Fin 1))) : List (Move 1 κ β) :=
  let wake : List (Action 1) := List.replicate 3 (.work worker) ++ [.dispatch ⟨7, 9, 3⟩] ++ List.replicate 9 .disp ++
    List.replicate 9 (.work worker) ++ [.disp]
  let done : List (Action 1) := [.work worker, .disp, .disp, .disp] ++ List.replicate 4 (.work worker) ++
    List.replicate 4 .disp
  wake.map .pool ++ rows.map .compute ++ done.map .pool

def countMoves : List (Move 1 Nat Nat) :=
  twoThreadMoves Nat Nat
    [some worker, none, some worker, some worker, none, some worker, none, some worker, some worker]

def countSystem : System (Computation 1 Nat Nat) (Move 1 Nat Nat) := computation (fun _ _ => countTask) 1 true fun _ => 5

theorem compute_eq_replay_two :
    ∃ s, countSystem.run countSystem.init countMoves = some s ∧ s.pool.disp = .idle ∧
      (List.range 4).map s.mem = [7, 7, 7, 5] ∧
      s.mem = replay (fun _ _ => countTask) (fun _ => 5) s.program := by
  have hrun : ∃ s, countSystem.run countSystem.init countMoves = some s ∧ s.pool.disp = .idle ∧
      (List.range 4).map s.mem = [7, 7, 7, 5] := ⟨_, rfl, rfl, rfl⟩
  obtain ⟨s, hs, hidle, hmem⟩ := hrun
  exact ⟨s, hs, hidle, hmem,
    (compute_eq_replay (fun _ _ => countTask) 1 true (fun _ => 5) s (System.Reachable.init.run hs)).1 hidle⟩

end BitForge.Pool
