/-
A cursor over a block of memory, in 64-bit words: a step takes the next bytes for a piece, or advances to a multiple of 64,
and one comparison for each step is to keep the cursor in the block. The comparison says what it is meant to say exactly
where no sum wraps, that is where the layout ends below `2 ^ 64`.
-/
import Mathlib.Data.List.Basic
import Mathlib.Tactic

namespace BitForge.Lib.Cursor

inductive Step (N : Type)
  | map (x : N)
  | align
deriving DecidableEq, Repr

/-- A step, and the offset at which it began. -/
structure Placed (N : Type) where
  step : Step N
  off : Nat
deriving DecidableEq, Repr

variable {N : Type} (bytes : N → Nat)

/-- The padding from `off` to a multiple of 64. -/
def padding (off : Nat) : Nat := (64 - off % 64) % 64

/-- How far a step advances the cursor. -/
def Step.len (off : Nat) : Step N → Nat
  | .map x => bytes x
  | .align => padding off

/-- The offset behind a step, or `none` where the comparison fails. An empty padding is not compared. -/
def advance (size off : Nat) : Step N → Option Nat
  | .map x => if (off + bytes x) % 2 ^ 64 > size then none else some ((off + bytes x) % 2 ^ 64)
  | .align =>
    if padding off > 0 then if (off + padding off) % 2 ^ 64 > size then none else some ((off + padding off) % 2 ^ 64)
    else some off

/-- All steps, with the offsets that the cursor has. -/
def walk (size : Nat) : Nat → List (Step N) → Option (List (Placed N))
  | _, [] => some []
  | off, s :: ss => do
    let next ← advance bytes size off s
    let log ← walk size next ss
    return ⟨s, off⟩ :: log

/-- The end of the layout, in exact arithmetic. -/
def layoutEnd : Nat → List (Step N) → Nat
  | off, [] => off
  | off, s :: ss => layoutEnd (off + s.len bytes off) ss

/-- The cursor behind a placed step. -/
def Placed.stop (p : Placed N) : Nat := p.off + p.step.len bytes p.off

/-! ## One step -/

theorem advance_some {size off next : Nat} {s : Step N} (hsize : size < 2 ^ 64) (hoff : off ≤ size)
    (h : advance bytes size off s = some next) : next = (off + s.len bytes off) % 2 ^ 64 ∧ next ≤ size := by
  cases s with
  | map x =>
    simp only [advance] at h
    split at h
    · cases h
    · next hle =>
      cases h
      exact ⟨rfl, Nat.le_of_not_lt hle⟩
  | align =>
    simp only [advance] at h
    simp only [Step.len]
    split at h
    · split at h
      · cases h
      · next hle =>
        cases h
        exact ⟨rfl, Nat.le_of_not_lt hle⟩
    · next hpad =>
      cases h
      have hzero : padding off = 0 := by omega
      rw [hzero, Nat.add_zero, Nat.mod_eq_of_lt (by omega)]
      exact ⟨rfl, hoff⟩

/-! ## All steps -/

theorem le_layoutEnd : ∀ (off : Nat) (ss : List (Step N)), off ≤ layoutEnd bytes off ss
  | off, [] => le_rfl
  | off, s :: ss => by
    have hrest := le_layoutEnd (off + s.len bytes off) ss
    simp only [layoutEnd]
    omega

/-- The layout depends on the lengths of its own pieces only. -/
theorem layoutEnd_congr {bytes' : N → Nat} : ∀ {off : Nat} {ss : List (Step N)}, (∀ x, .map x ∈ ss → bytes x = bytes' x) →
    layoutEnd bytes off ss = layoutEnd bytes' off ss
  | _, [], _ => rfl
  | off, s :: ss, h => by
    have hlen : s.len bytes off = s.len bytes' off := by
      cases s with
      | map x => exact h x List.mem_cons_self
      | align => rfl
    simp only [layoutEnd, hlen]
    exact layoutEnd_congr fun x hx => h x (List.mem_cons_of_mem _ hx)

theorem walk_cons {size off : Nat} {s : Step N} {ss : List (Step N)} {log : List (Placed N)}
    (h : walk bytes size off (s :: ss) = some log) :
    ∃ next rest, advance bytes size off s = some next ∧ walk bytes size next ss = some rest ∧ log = ⟨s, off⟩ :: rest := by
  simp only [walk, Option.bind_eq_bind, Option.bind_eq_some_iff] at h
  obtain ⟨next, hnext, rest, hrest, heq⟩ := h
  cases heq
  exact ⟨next, rest, hnext, hrest, rfl⟩

/-- Every step is placed, in order. -/
theorem walk_steps {size : Nat} : ∀ {off : Nat} {ss : List (Step N)} {log : List (Placed N)},
    walk bytes size off ss = some log → log.map Placed.step = ss
  | _, [], log, h => by
    cases h
    rfl
  | off, s :: ss, log, h => by
    obtain ⟨next, rest, -, hrest, rfl⟩ := walk_cons bytes h
    rw [List.map_cons, walk_steps hrest]

/-- No sum wraps exactly if the layout ends below `2 ^ 64`. -/
theorem layoutEnd_lt_iff {size : Nat} (hsize : size < 2 ^ 64) : ∀ {off : Nat} {ss : List (Step N)} {log : List (Placed N)},
    off ≤ size → walk bytes size off ss = some log →
      (layoutEnd bytes off ss < 2 ^ 64 ↔ ∀ p ∈ log, p.stop bytes < 2 ^ 64)
  | off, [], log, hoff, h => by
    cases h
    simp only [layoutEnd, List.not_mem_nil, false_imp_iff, implies_true, iff_true]
    omega
  | off, s :: ss, log, hoff, h => by
    obtain ⟨next, rest, hnext, hrest, rfl⟩ := walk_cons bytes h
    obtain ⟨heq, hle⟩ := advance_some bytes hsize hoff hnext
    have hend := le_layoutEnd bytes (off + s.len bytes off) ss
    have ih := layoutEnd_lt_iff hsize hle hrest
    simp only [layoutEnd, List.forall_mem_cons, Placed.stop]
    constructor
    · intro hlt
      have hadd : next = off + s.len bytes off := by
        rw [heq, Nat.mod_eq_of_lt (by omega)]
      rw [← hadd] at hlt
      exact ⟨by omega, ih.1 hlt⟩
    · rintro ⟨hlt, hall⟩
      have hadd : next = off + s.len bytes off := by
        rw [heq, Nat.mod_eq_of_lt hlt]
      rw [← hadd]
      exact ih.2 hall

/-- Without wrapping every piece lies in the block, behind the pieces before it. -/
theorem walk_ordered {size : Nat} (hsize : size < 2 ^ 64) : ∀ {off : Nat} {ss : List (Step N)} {log : List (Placed N)},
    off ≤ size → walk bytes size off ss = some log → layoutEnd bytes off ss < 2 ^ 64 →
      (∀ p ∈ log, off ≤ p.off ∧ p.stop bytes ≤ size) ∧ log.Pairwise fun p q => p.stop bytes ≤ q.off
  | off, [], log, hoff, h, _ => by
    cases h
    exact ⟨fun _ hp => absurd hp List.not_mem_nil, List.Pairwise.nil⟩
  | off, s :: ss, log, hoff, h, hend => by
    obtain ⟨next, rest, hnext, hrest, rfl⟩ := walk_cons bytes h
    obtain ⟨heq, hle⟩ := advance_some bytes hsize hoff hnext
    have hmono := le_layoutEnd bytes (off + s.len bytes off) ss
    simp only [layoutEnd] at hend
    have hadd : next = off + s.len bytes off := by
      rw [heq, Nat.mod_eq_of_lt (by omega)]
    obtain ⟨hin, hpair⟩ := walk_ordered hsize hle hrest (hadd ▸ hend)
    constructor
    · intro p hp
      rcases List.mem_cons.1 hp with rfl | hp
      · rw [hadd] at hle
        exact ⟨le_rfl, hle⟩
      · obtain ⟨hlo, hhi⟩ := hin p hp
        exact ⟨by omega, hhi⟩
    · refine List.pairwise_cons.2 ⟨fun q hq => ?_, hpair⟩
      have hlo := (hin q hq).1
      rw [hadd] at hlo
      exact hlo

end BitForge.Lib.Cursor
