/-
Transition systems given by a step function: a state `σ`, an action `α` that is enabled or not,
and the reachable states, with the rule that an invariant of the steps holds in all of them.
-/
import Mathlib.Data.List.Basic

namespace BitForge.Lib

/-- A transition system; `step s a = none` says that `a` is not enabled in `s`. -/
structure System (σ α : Type) where
  init : σ
  step : σ → α → Option σ

namespace System

variable {σ α : Type} (S : System σ α)

inductive Reachable : σ → Prop
  | init : Reachable S.init
  | step {s s' : σ} (a : α) : Reachable s → S.step s a = some s' → Reachable s'

/-- The state after a list of actions, all of them enabled. -/
def run : σ → List α → Option σ
  | s, [] => some s
  | s, a :: as => (S.step s a).bind fun s' => run s' as

variable {S}

/-- What holds at first and is preserved by every step from a reachable state holds in every
reachable state. -/
theorem Reachable.invariant {I : σ → Prop} {s : σ} (h : S.Reachable s) (h0 : I S.init)
    (hs : ∀ s a s', S.Reachable s → I s → S.step s a = some s' → I s') : I s := by
  induction h with
  | init => exact h0
  | step a hr hstep ih => exact hs _ a _ hr ih hstep

theorem Reachable.run : ∀ {as : List α} {s s' : σ}, S.Reachable s → S.run s as = some s' → S.Reachable s'
  | [], s, s', h, hr => by cases hr; exact h
  | a :: as, s, s', h, hr => by
    unfold System.run at hr
    cases hst : S.step s a with
    | none => rw [hst] at hr; cases hr
    | some s1 =>
      rw [hst] at hr
      exact Reachable.run (.step a h hst) hr

end System

end BitForge.Lib
