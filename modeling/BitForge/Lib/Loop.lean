/-
Loops of logged programs: a body is run until it yields a result, the measure of the state bounding
the number of its runs. The rule of invariants for them, and runs without their log.
-/
import BitForge.Lib.Logged

namespace BitForge.Lib

namespace Prog

variable {ε σ α β : Type}

/-- Runs `f` until it yields a result, at most `k` times. -/
def iter (f : α → Prog ε σ (α ⊕ β)) : Nat → α → Prog ε σ β
  | 0, _ => deep
  | k + 1, a => do
    match ← f a with
    | .inl a' => iter f k a'
    | .inr b => pure b

/-- A loop whose body lowers the measure whenever it goes on. -/
def loop (μ : σ → Nat) (f : α → Prog ε σ (α ⊕ β)) (a : α) : Prog ε σ β := fun s => iter f (μ s + 1) a s

/-- A run on a copy of the state. -/
def onCopy (r : Prog ε σ α) : Prog ε σ α := fun s => { r s with state := s }

def emit (e : ε) : Prog ε σ Unit := fun s => ⟨.ok (), s, [e]⟩

end Prog

section

variable {ε σ α β γ : Type} {R : Rely ε σ}

/-! ## The rule of loops -/

theorem Triple.iter {μ : σ → Nat} {f : α → Prog ε σ (α ⊕ β)} {I : α → σ → Prop} {Q : β → σ → Prop}
    (hf : ∀ n a, Triple R (fun s => I a s ∧ μ s = n) (f a)
      fun r s => Sum.elim (fun a' => I a' s ∧ μ s < n) (fun b => Q b s) r) :
    ∀ k a, Triple R (fun s => I a s ∧ μ s < k) (Prog.iter f k a) Q
  | 0, a => fun s hs _ => absurd hs.2 (Nat.not_lt_zero _)
  | k + 1, a => by
    intro s hs
    have hbody := Triple.bind (hf (μ s) a) (f := fun r => match r with
      | .inl a' => Prog.iter f k a'
      | .inr b => pure b) (S := Q) ?_
    · exact hbody s ⟨hs.1, rfl⟩
    · rintro (a' | b)
      · exact (Triple.iter hf k a').weaken (fun t ht => ⟨ht.1, by have := ht.2; omega⟩) fun _ _ h => h
      · exact Triple.ret fun t ht => ht

theorem Triple.loop {μ : σ → Nat} {f : α → Prog ε σ (α ⊕ β)} {I : α → σ → Prop} {Q : β → σ → Prop}
    (hf : ∀ n a, Triple R (fun s => I a s ∧ μ s = n) (f a)
      fun r s => Sum.elim (fun a' => I a' s ∧ μ s < n) (fun b => Q b s) r) (a : α) :
    Triple R (I a) (Prog.loop μ f a) Q :=
  fun s hs => Triple.iter hf (μ s + 1) a s ⟨hs, Nat.lt_succ_self _⟩

theorem Triple.onCopy {P : σ → Prop} {r : Prog ε σ α} {Q : α → σ → Prop} {T : α → Prop} (h : Triple R P r Q)
    (hT : ∀ a s, Q a s → T a) (hfail : ∀ s, P s → R.failed s) :
    Triple R P (Prog.onCopy r) fun a s => P s ∧ T a := by
  intro s hs hlog
  obtain ⟨hshown, hends⟩ := h s hs hlog
  refine ⟨hshown, ?_⟩
  unfold Prog.onCopy
  cases ho : (r s).outcome with
  | ok a =>
    rw [ho] at hends
    exact ⟨hs, hT a _ hends⟩
  | fail => exact hfail s hs
  | deep =>
    rw [ho] at hends
    exact hends

theorem Triple.emit {P : σ → Prop} {e : ε} (h : ∀ s, P s → R.assumed e → R.shown e) :
    Triple R P (Prog.emit e) fun _ s => P s ∧ R.assumed e := by
  intro s hs hlog
  have he : R.assumed e := hlog e (List.mem_singleton.2 rfl)
  refine ⟨fun e' he' => ?_, hs, he⟩
  rw [List.mem_singleton.1 he']
  exact h s hs he

/-! ## Runs -/

/-- The program ends with the result `a` in the state `u`. -/
structure Runs (r : Prog ε σ α) (s : σ) (a : α) (u : σ) : Prop where
  outcome : (r s).outcome = .ok a
  state : (r s).state = u

/-- The program ends with an error. -/
def Fails (r : Prog ε σ α) (s : σ) : Prop := (r s).outcome = .fail

variable {r : Prog ε σ α} {f : α → Prog ε σ β} {s u v : σ} {a : α} {b : β}

theorem Runs.ret : Runs (pure a : Prog ε σ α) s a s := ⟨rfl, rfl⟩

theorem Fails.fail : Fails (Prog.fail : Prog ε σ α) s := rfl

theorem Runs.bind (h : Runs r s a u) (hf : Runs (f a) u b v) : Runs (r >>= f) s b v := by
  have hrun : (r >>= f) s = r.andThen f s := rfl
  unfold Prog.andThen at hrun
  obtain ⟨ho, hst⟩ := h
  rcases hr : r s with ⟨o, t, l⟩
  rw [hr] at hrun ho hst
  cases ho
  cases hst
  constructor
  · rw [hrun]
    exact hf.outcome
  · rw [hrun]
    exact hf.state

theorem Fails.bind (h : Fails r s) : Fails (r >>= f) s := by
  have hrun : (r >>= f) s = r.andThen f s := rfl
  unfold Prog.andThen at hrun
  unfold Fails at h ⊢
  rcases hr : r s with ⟨o, t, l⟩
  rw [hr] at hrun h
  cases h
  rw [hrun]

theorem Runs.bind_fails (h : Runs r s a u) (hf : Fails (f a) u) : Fails (r >>= f) s := by
  have hrun : (r >>= f) s = r.andThen f s := rfl
  unfold Prog.andThen at hrun
  obtain ⟨ho, hst⟩ := h
  rcases hr : r s with ⟨o, t, l⟩
  rw [hr] at hrun ho hst
  cases ho
  cases hst
  unfold Fails
  rw [hrun]
  exact hf

theorem Runs.onCopy (h : Runs r s a u) : Runs (Prog.onCopy r) s a s := ⟨h.outcome, rfl⟩

theorem Runs.emit {e : ε} : Runs (Prog.emit e : Prog ε σ Unit) s () s := ⟨rfl, rfl⟩

/-- The result and the final state are determined. -/
theorem Runs.unique {a' : α} {t : σ} (h : Runs r s a u) (h' : Runs r s a' t) : a = a' ∧ u = t := by
  constructor
  · exact Outcome.ok.inj (h.outcome.symm.trans h'.outcome)
  · exact h.state.symm.trans h'.state

theorem Runs.not_fails (h : Runs r s a u) : ¬ Fails r s := by
  intro hf
  exact absurd (h.outcome.symm.trans hf) nofun

/-- The run of `r` goes on as the run of `r'` from `u`. -/
structure Continues (r : Prog ε σ α) (s : σ) (r' : Prog ε σ α) (u : σ) : Prop where
  runs : ∀ {a t}, Runs r' u a t → Runs r s a t
  fails : Fails r' u → Fails r s

theorem Runs.continues (h : Runs r s a u) : Continues (r >>= f) s (f a) u := ⟨h.bind, h.bind_fails⟩

theorem Continues.trans {r r' r'' : Prog ε σ α} (h : Continues r s r' u) (h' : Continues r' u r'' v) :
    Continues r s r'' v := ⟨fun hrun => h.runs (h'.runs hrun), fun hfail => h.fails (h'.fails hfail)⟩

/-- Some iterations of a loop. -/
inductive Reaches (μ : σ → Nat) (f : α → Prog ε σ (α ⊕ β)) : α → σ → α → σ → Prop
  | refl (a : α) (s : σ) : Reaches μ f a s a s
  | step {a a' b : α} {s u t : σ} : Runs (f a) s (.inl a') u → μ u < μ s → Reaches μ f a' u b t →
      Reaches μ f a s b t

variable {μ : σ → Nat} {g : α → Prog ε σ (α ⊕ β)} {a' a'' : α} {t : σ}

theorem Reaches.trans (h : Reaches μ g a s a' u) (h' : Reaches μ g a' u a'' v) : Reaches μ g a s a'' v := by
  induction h with
  | refl a s => exact h'
  | step hrun hlt _ ih => exact .step hrun hlt (ih h')

theorem Reaches.one (h : Runs (g a) s (.inl a') u) (hlt : μ u < μ s) : Reaches μ g a s a' u :=
  .step h hlt (.refl a' u)

theorem Reaches.iter_runs (h : Reaches μ g a s a' u) (hdone : Runs (g a') u (.inr b) t) :
    ∀ k, μ s < k → Runs (Prog.iter g k a) s b t := by
  induction h with
  | refl a s =>
    intro k hk
    obtain ⟨k, rfl⟩ := Nat.exists_eq_succ_of_ne_zero (Nat.ne_of_gt (Nat.zero_lt_of_lt hk))
    exact Runs.bind hdone Runs.ret
  | step hrun hlt _ ih =>
    intro k hk
    obtain ⟨k, rfl⟩ := Nat.exists_eq_succ_of_ne_zero (Nat.ne_of_gt (Nat.zero_lt_of_lt hk))
    exact Runs.bind hrun (ih hdone k (by omega))

theorem Reaches.iter_fails (h : Reaches μ g a s a' u) (hdone : Fails (g a') u) :
    ∀ k, μ s < k → Fails (Prog.iter g k a) s := by
  induction h with
  | refl a s =>
    intro k hk
    obtain ⟨k, rfl⟩ := Nat.exists_eq_succ_of_ne_zero (Nat.ne_of_gt (Nat.zero_lt_of_lt hk))
    exact Fails.bind hdone
  | step hrun hlt _ ih =>
    intro k hk
    obtain ⟨k, rfl⟩ := Nat.exists_eq_succ_of_ne_zero (Nat.ne_of_gt (Nat.zero_lt_of_lt hk))
    exact Runs.bind_fails hrun (ih hdone k (by omega))

/-- A loop that gets to its last iteration ends with the result of it. -/
theorem Reaches.runs (h : Reaches μ g a s a' u) (hdone : Runs (g a') u (.inr b) t) : Runs (Prog.loop μ g a) s b t := by
  obtain ⟨ho, hst⟩ := h.iter_runs hdone (μ s + 1) (Nat.lt_succ_self _)
  exact ⟨ho, hst⟩

theorem Reaches.fails (h : Reaches μ g a s a' u) (hdone : Fails (g a') u) : Fails (Prog.loop μ g a) s :=
  h.iter_fails hdone (μ s + 1) (Nat.lt_succ_self _)

end

end BitForge.Lib
