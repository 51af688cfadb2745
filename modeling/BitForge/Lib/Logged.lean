/-
Programs over a cursor that may fail or run out of recursion depth and that log what they do, with a
logic for them: under a condition on the logged events, a program from a state of its precondition
logs harmless events only, does not run out of depth and ends in its postcondition.
-/
import Mathlib.Data.List.Basic

namespace BitForge.Lib

/-- How a program ends: with a result, with an error, or by a recursion deeper than allowed. -/
inductive Outcome (α : Type)
  | ok (a : α)
  | fail
  | deep
deriving DecidableEq, Repr

/-- The outcome, the state at the end and the events in their order. -/
structure Logged (ε σ α : Type) where
  outcome : Outcome α
  state : σ
  log : List ε

/-- A program over the state `σ` that logs events `ε`. -/
def Prog (ε σ α : Type) := σ → Logged ε σ α

namespace Prog

variable {ε σ α β : Type}

def ret (a : α) : Prog ε σ α := fun s => ⟨.ok a, s, []⟩

def fail : Prog ε σ α := fun s => ⟨.fail, s, []⟩

def deep : Prog ε σ α := fun s => ⟨.deep, s, []⟩

def andThen (r : Prog ε σ α) (f : α → Prog ε σ β) : Prog ε σ β := fun s =>
  match r s with
  | ⟨.ok a, s', l⟩ => ⟨(f a s').outcome, (f a s').state, l ++ (f a s').log⟩
  | ⟨.fail, s', l⟩ => ⟨.fail, s', l⟩
  | ⟨.deep, s', l⟩ => ⟨.deep, s', l⟩

instance : Monad (Prog ε σ) where
  pure := ret
  bind := andThen

/-- `n` runs of a program, up to the first that fails. -/
def repeatN : Nat → Prog ε σ Unit → Prog ε σ Unit
  | 0, _ => pure ()
  | n + 1, r => do
    r
    repeatN n r

end Prog

/-! ## The logic -/

/-- What a proof assumes of each event, what it shows of each, and what holds in the state of an error. -/
structure Rely (ε σ : Type) where
  assumed : ε → Prop
  shown : ε → Prop
  failed : σ → Prop

section

variable {ε σ α β : Type}

/-- What holds of a program's outcome and final state. -/
def Rely.Ends (R : Rely ε σ) (Q : α → σ → Prop) : Outcome α → σ → Prop
  | .ok a, s => Q a s
  | .fail, s => R.failed s
  | .deep, _ => False

def Triple (R : Rely ε σ) (P : σ → Prop) (r : Prog ε σ α) (Q : α → σ → Prop) : Prop :=
  ∀ s, P s → (∀ e ∈ (r s).log, R.assumed e) →
    (∀ e ∈ (r s).log, R.shown e) ∧ R.Ends Q (r s).outcome (r s).state

variable {R : Rely ε σ} {P P' : σ → Prop} {Q Q' : α → σ → Prop} {S : β → σ → Prop} {r : Prog ε σ α}

theorem Triple.ret {a : α} (h : ∀ s, P s → Q a s) : Triple R P (pure a) Q :=
  fun s hs _ => ⟨nofun, h s hs⟩

theorem Triple.fail (h : ∀ s, P s → R.failed s) : Triple R P Prog.fail Q :=
  fun s hs _ => ⟨nofun, h s hs⟩

theorem Triple.weaken (h : Triple R P r Q) (hp : ∀ s, P' s → P s) (hq : ∀ a s, Q a s → Q' a s) : Triple R P' r Q' := by
  intro s hs hlog
  obtain ⟨hshown, hends⟩ := h s (hp s hs) hlog
  refine ⟨hshown, ?_⟩
  cases ho : (r s).outcome with
  | ok a =>
    rw [ho] at hends
    exact hq a _ hends
  | fail =>
    rw [ho] at hends
    exact hends
  | deep =>
    rw [ho] at hends
    exact hends

theorem Triple.bind {f : α → Prog ε σ β} (h : Triple R P r Q) (hf : ∀ a, Triple R (Q a) (f a) S) :
    Triple R P (r >>= f) S := by
  intro s hs hlog
  change ∀ e ∈ (r.andThen f s).log, R.assumed e at hlog
  change (∀ e ∈ (r.andThen f s).log, R.shown e) ∧ R.Ends S (r.andThen f s).outcome (r.andThen f s).state
  have hr := h s hs
  unfold Prog.andThen at hlog ⊢
  rcases hrs : r s with ⟨o, s', l⟩
  rw [hrs] at hr hlog
  cases o with
  | ok a =>
    obtain ⟨hshown, hends⟩ := hr fun e he => hlog e (List.mem_append_left _ he)
    obtain ⟨hshown', hends'⟩ := hf a s' hends fun e he => hlog e (List.mem_append_right _ he)
    refine ⟨fun e he => ?_, hends'⟩
    rcases List.mem_append.1 he with he | he
    · exact hshown e he
    · exact hshown' e he
  | fail => exact hr hlog
  | deep => exact hr hlog

/-- Sequencing, with a fact about the first result that needs no state. -/
theorem Triple.bind_and {φ : α → Prop} {f : α → Prog ε σ β} (h : Triple R P r fun a s => Q a s ∧ φ a)
    (hf : ∀ a, φ a → Triple R (Q a) (f a) S) : Triple R P (r >>= f) S :=
  Triple.bind h fun a s hs hlog => hf a hs.2 s hs.1 hlog

theorem Triple.exists {ι : Type} {P : ι → σ → Prop} (h : ∀ i, Triple R (P i) r Q) : Triple R (fun s => ∃ i, P i s) r Q :=
  fun s ⟨i, hs⟩ hlog => h i s hs hlog

theorem Triple.and_left {φ : Prop} (h : φ → Triple R P r Q) : Triple R (fun s => φ ∧ P s) r Q :=
  fun s hs hlog => h hs.1 s hs.2 hlog

/-! ## Repetition -/

/-- `n` values one after the other from `p` to `e`, each of them with `V` between its two ends. -/
def Elems (V : Nat → Nat → Prop) (n p e : Nat) : Prop :=
  ∃ ends : Nat → Nat, ends 0 = p ∧ ends n = e ∧ ∀ i < n, V (ends i) (ends (i + 1))

theorem Elems.nil {V : Nat → Nat → Prop} (p : Nat) : Elems V 0 p p :=
  ⟨fun _ => p, rfl, rfl, nofun⟩

theorem Elems.cons {V : Nat → Nat → Prop} {n p q e : Nat} (hv : V p q) (h : Elems V n q e) : Elems V (n + 1) p e := by
  obtain ⟨ends, h0, hn, hV⟩ := h
  refine ⟨fun | 0 => p | i + 1 => ends i, rfl, hn, fun i hi => ?_⟩
  cases i with
  | zero =>
    subst h0
    exact hv
  | succ i => exact hV i (Nat.lt_of_succ_lt_succ hi)

/-- The rule of repetition: each run reads one value and leaves the state at its end. -/
theorem Triple.repeatN {V : Nat → Nat → Prop} {A : Nat → σ → Prop} {r : Prog ε σ Unit} {lo : Nat}
    (hr : ∀ p, lo ≤ p → Triple R (A p) r fun _ s => ∃ q, (V p q ∧ p ≤ q) ∧ A q s) :
    ∀ n p, lo ≤ p → Triple R (A p) (Prog.repeatN n r) fun _ s => ∃ e, (Elems V n p e ∧ p ≤ e) ∧ A e s
  | 0, p, _ => Triple.ret fun _ hs => ⟨p, ⟨.nil p, Nat.le_refl p⟩, hs⟩
  | n + 1, p, hp => by
    unfold Prog.repeatN
    refine Triple.bind (hr p hp) fun _ => Triple.exists fun q => Triple.and_left fun ⟨hv, hle⟩ => ?_
    refine (Triple.repeatN hr n q (Nat.le_trans hp hle)).weaken (fun _ hs => hs) ?_
    rintro _ s ⟨e, ⟨he, hqe⟩, hs⟩
    exact ⟨e, ⟨.cons hv he, Nat.le_trans hle hqe⟩, hs⟩

end

end BitForge.Lib
