/-
`execute_command` of `agent/cmd_exec.c` after its fork: the polling loop of the parent, one action for each system call,
and the child, which may write, close its output and end at any time between them.
-/
import BitForge.Lib.Run
import Mathlib.Tactic

namespace BitForge.Agent

open BitForge.Lib

/-! ## The child and its status word -/

/-- How a child ends. Signals have the numbers 1 to 64. -/
inductive ChildEnd
  | exited (code : UInt8)
  | signaled (sig : Fin 64) (core : Bool)
deriving DecidableEq, Repr

/-- The status that `waitpid` stores. -/
def ChildEnd.status : ChildEnd → Nat
  | .exited code => code.toNat * 256
  | .signaled sig core => sig.val + 1 + if core then 128 else 0

/-- The exit status, and -1 for a child killed by a signal. -/
def ChildEnd.exitCode : ChildEnd → Int
  | .exited code => code.toNat
  | .signaled .. => -1

def wifexited (status : Nat) : Bool := status % 128 = 0

def wexitstatus (status : Nat) : Int := (status / 256 % 256 : Nat)

/-- The exit code of a call that has not timed out. -/
def exitCodeOf (status : Nat) : Int := if wifexited status then wexitstatus status else -1

theorem exitCodeOf_status (e : ChildEnd) : exitCodeOf e.status = e.exitCode := by
  unfold exitCodeOf wifexited wexitstatus
  cases e with
  | exited code =>
    have := code.toNat_lt
    have hmod : code.toNat * 256 % 128 = 0 := by omega
    have hdiv : code.toNat * 256 / 256 % 256 = code.toNat := by omega
    simp only [ChildEnd.status, ChildEnd.exitCode, hmod, hdiv, decide_true, if_true]
  | signaled sig core =>
    have hne : ¬ (sig.val + 1 + if core then 128 else 0) % 128 = 0 := by
      have := sig.isLt
      split <;> omega
    simp only [ChildEnd.status, ChildEnd.exitCode, hne, decide_false, if_false, Bool.false_eq_true]

/-! ## The states -/

structure ExecResult where
  exitCode : Int
  timedOut : Bool
  stdoutLen : Nat
deriving DecidableEq, Repr

/-- Where the parent is: before a system call, behind the loop, or back in its caller. -/
inductive ExecAt
  | select
  | read
  | waitpidNohang
  | checkTime
  | waitpidKilled
  | leftLoop
  | returned
deriving DecidableEq, Repr

structure ExecState where
  pc : ExecAt := .select
  /-- all that the child has written, and what of it is in the pipe -/
  written : List UInt8 := []
  pipe : List UInt8 := []
  outputOpen : Bool := true
  ended : Option ChildEnd := none
  /-- the parent has waited for the child -/
  reaped : Bool := false
  killed : Bool := false
  /-- seconds since `start` -/
  clock : Nat := 0
  /-- the first `total_read` bytes of `out_buf`, and where the NUL is written -/
  outBuf : List UInt8 := []
  nulAt : Option Nat := none
  status : Nat := 0
  timedOut : Bool := false
  result : Option ExecResult := none
deriving DecidableEq, Repr

/-- `read` would not block. -/
def ExecState.Readable (s : ExecState) : Prop := s.pipe ≠ [] ∨ s.outputOpen = false

instance (s : ExecState) : Decidable s.Readable := by
  unfold ExecState.Readable; infer_instance

inductive ExecAct
  -- the child, and time
  | childWrites (chunk : List UInt8)
  | childCloses
  | childEnds (e : ChildEnd)
  | second
  -- the parent
  | selectReady
  | selectTimeout
  | selectInterrupted
  | readSome (n : Nat)
  | readZero
  | readAgain
  | waitpid
  | checkTime
  | waitpidKilled
  | ret
deriving DecidableEq, Repr

section

variable (outBufSize : Nat) (timeoutSec : Int)

/-- The bytes that `read` is asked for. -/
def ExecState.room (s : ExecState) : Nat := if outBufSize > s.outBuf.length then outBufSize - s.outBuf.length - 1 else 0

/-- The step of an action; `none` where it is not enabled. -/
def execStep (s : ExecState) : ExecAct → Option ExecState
  | .childWrites chunk =>
    if s.ended = none ∧ s.outputOpen = true then some { s with written := s.written ++ chunk, pipe := s.pipe ++ chunk } else none
  | .childCloses => if s.ended = none then some { s with outputOpen := false } else none
  | .childEnds e => if s.ended = none then some { s with ended := some e, outputOpen := false } else none
  | .second => some { s with clock := s.clock + 1 }
  | .selectReady => if s.pc = .select ∧ s.Readable then some { s with pc := .read } else none
  | .selectTimeout => if s.pc = .select ∧ ¬ s.Readable then some { s with pc := .waitpidNohang } else none
  | .selectInterrupted => if s.pc = .select then some { s with pc := .waitpidNohang } else none
  | .readSome n =>
    if s.pc = .read ∧ 0 < n ∧ n ≤ s.pipe.length ∧ n ≤ s.room outBufSize then
      some { s with
        outBuf := s.outBuf ++ s.pipe.take n
        pipe := s.pipe.drop n
        pc := if s.outBuf.length + n ≥ outBufSize - 1 then .leftLoop else .select }
    else none
  | .readZero =>
    if s.pc = .read ∧ (s.room outBufSize = 0 ∨ s.pipe = [] ∧ s.outputOpen = false) then some { s with pc := .leftLoop } else none
  | .readAgain =>
    if s.pc = .read ∧ s.room outBufSize ≠ 0 ∧ ¬ s.Readable then some { s with pc := .waitpidNohang } else none
  | .waitpid =>
    if s.pc = .waitpidNohang then
      match s.ended with
      | some e => some { s with status := e.status, reaped := true, pc := .leftLoop }
      | none => some { s with pc := .checkTime }
    else none
  | .checkTime =>
    if s.pc = .checkTime then
      if timeoutSec > 0 ∧ (s.clock : Int) ≥ timeoutSec then some { s with killed := true, pc := .waitpidKilled }
      else some { s with pc := .select }
    else none
  | .waitpidKilled =>
    if s.pc = .waitpidKilled then
      match s.ended with
      | some e => some { s with status := e.status, reaped := true, timedOut := true, pc := .leftLoop }
      | none => none
    else none
  | .ret =>
    if s.pc = .leftLoop then
      some { s with
        nulAt := some (if s.outBuf.length < outBufSize then s.outBuf.length else outBufSize - 1)
        result := some
          { exitCode := if s.timedOut then -1 else exitCodeOf s.status
            timedOut := s.timedOut
            stdoutLen := s.outBuf.length }
        pc := .returned }
    else none

def execSystem : System ExecState ExecAct := ⟨{}, execStep outBufSize timeoutSec⟩

/-! ## What the result reports -/

/-- The result says what the command did. -/
structure Reports (s : ExecState) (r : ExecResult) : Prop where
  timedOut_iff : r.timedOut = true ↔ s.killed = true
  outcome : r.timedOut = false → ∃ e, s.ended = some e ∧ s.reaped = true ∧ r.exitCode = e.exitCode ∧
    s.outBuf = s.written.take (outBufSize - 1) ∧ r.stdoutLen = s.outBuf.length ∧ s.nulAt = some s.outBuf.length

/-- The step does not leave the loop by the end of the output or with a full buffer, nor for a child that is gone with
output left in the pipe. -/
def Harmless (s : ExecState) : ExecAct → Prop
  | .readZero => False
  | .readSome n => s.outBuf.length + n < outBufSize - 1
  | .waitpid => s.ended.isSome = true → s.pipe = []
  | _ => True

instance (s : ExecState) (a : ExecAct) : Decidable (Harmless outBufSize s a) := by
  unfold Harmless; cases a <;> infer_instance

/-- All steps of a run are harmless. -/
def HarmlessRun : ExecState → List ExecAct → Prop
  | _, [] => True
  | s, a :: as =>
    Harmless outBufSize s a ∧
      match execStep outBufSize timeoutSec s a with
      | some s' => HarmlessRun s' as
      | none => True

end

variable {outBufSize : Nat} {timeoutSec : Int}

/-! ## The invariant -/

/-- What holds in every state. -/
structure ExecInv (outBufSize : Nat) (s : ExecState) : Prop where
  split : s.written = s.outBuf ++ s.pipe
  fits : s.outBuf.length ≤ outBufSize - 1
  looping : s.pc ≠ .leftLoop → s.pc ≠ .returned → s.outBuf.length < outBufSize - 1 ∧ s.reaped = false ∧ s.timedOut = false
  killed_iff : s.killed = true ↔ s.pc = .waitpidKilled ∨ s.timedOut = true
  reaped : s.reaped = true → ∃ e, s.ended = some e ∧ s.status = e.status
  result : ∀ r, s.result = some r → s.pc = .returned ∧ s.nulAt = some s.outBuf.length ∧
    r = { exitCode := if s.timedOut then -1 else exitCodeOf s.status, timedOut := s.timedOut, stdoutLen := s.outBuf.length }

/-- Once the loop is left without a timeout, the child has been waited for and its output read. -/
def Good (s : ExecState) : Prop :=
  s.pc = .leftLoop ∨ s.pc = .returned → s.timedOut = false → s.reaped = true ∧ s.pipe = []

/-- The loop is left without a timeout, and the child is not waited for or some of its output is lost. -/
structure Bad (outBufSize : Nat) (s : ExecState) : Prop where
  left : s.pc = .leftLoop ∨ s.pc = .returned
  timedOut : s.timedOut = false
  lost : s.reaped = false ∨ s.pipe ≠ [] ∧ s.outBuf.length < outBufSize - 1

theorem execInv_init (hsize : 2 ≤ outBufSize) : ExecInv outBufSize {} where
  split := rfl
  fits := Nat.zero_le _
  looping _ _ := ⟨by dsimp only [List.length_nil]; omega, rfl, rfl⟩
  killed_iff := by decide
  reaped := nofun
  result := nofun

theorem passed {c : Prop} [Decidable c] {x : Option ExecState} {s' : ExecState} (h : (if c then x else none) = some s') :
    c ∧ x = some s' := Option.ite_none_right_eq_some.1 h

/-- A move of the parent inside the loop. -/
theorem ExecInv.move {s : ExecState} (h : ExecInv outBufSize s) {pc : ExecAt} (hloop : s.pc ≠ .leftLoop ∧ s.pc ≠ .returned)
    (hkilled : s.pc ≠ .waitpidKilled ∧ pc ≠ .waitpidKilled) : ExecInv outBufSize { s with pc := pc } where
  split := h.split
  fits := h.fits
  looping _ _ := h.looping hloop.1 hloop.2
  killed_iff := h.killed_iff.trans (or_congr_left (iff_of_false hkilled.1 hkilled.2))
  reaped := h.reaped
  result r hr := absurd (h.result r hr).1 hloop.2

theorem execInv_step {s s' : ExecState} {a : ExecAct} (h : ExecInv outBufSize s) (hsize : 2 ≤ outBufSize)
    (hstep : execStep outBufSize timeoutSec s a = some s') : ExecInv outBufSize s' := by
  cases a <;> simp only [execStep] at hstep
  case childWrites chunk =>
    obtain ⟨-, hs⟩ := passed hstep
    cases hs
    exact { h with split := by dsimp only; rw [h.split, List.append_assoc] }
  case childCloses =>
    obtain ⟨-, hs⟩ := passed hstep
    cases hs
    exact { h with }
  case childEnds e =>
    obtain ⟨hrunning, hs⟩ := passed hstep
    cases hs
    refine { h with reaped := fun hr => ?_ }
    obtain ⟨e', he', -⟩ := h.reaped hr
    rw [hrunning] at he'
    cases he'
  case second =>
    cases hstep
    exact { h with }
  case selectReady =>
    obtain ⟨⟨hpc, -⟩, hs⟩ := passed hstep
    cases hs
    exact h.move (by simp [hpc]) (by simp [hpc])
  case selectTimeout =>
    obtain ⟨⟨hpc, -⟩, hs⟩ := passed hstep
    cases hs
    exact h.move (by simp [hpc]) (by simp [hpc])
  case selectInterrupted =>
    obtain ⟨hpc, hs⟩ := passed hstep
    cases hs
    exact h.move (by simp [hpc]) (by simp [hpc])
  case readSome n =>
    -- the only step that fills the buffer: `room` keeps a byte for the terminator
    obtain ⟨⟨hpc, hpos, hpipe, hroom⟩, hs⟩ := passed hstep
    cases hs
    obtain ⟨hlt, hreaped, htimed⟩ := h.looping (by simp [hpc]) (by simp [hpc])
    have hlen : (s.outBuf ++ s.pipe.take n).length = s.outBuf.length + n := by
      rw [List.length_append, List.length_take, min_eq_left hpipe]
    have hmax : s.outBuf.length + n ≤ outBufSize - 1 := by
      unfold ExecState.room at hroom
      split at hroom <;> omega
    have hkilled : ¬ s.killed = true := fun hk => by
      rcases h.killed_iff.1 hk with hw | ht
      · rw [hpc] at hw
        cases hw
      · rw [htimed] at ht
        cases ht
    constructor
    · dsimp only
      rw [h.split, List.append_assoc, List.take_append_drop]
    · dsimp only
      rwa [hlen]
    · dsimp only
      intro hleft _
      rw [hlen]
      split at hleft
      · exact absurd rfl hleft
      · exact ⟨by omega, hreaped, htimed⟩
    · dsimp only
      refine iff_of_false hkilled ?_
      rintro (hw | ht)
      · split at hw <;> cases hw
      · rw [htimed] at ht
        cases ht
    · exact h.reaped
    · intro r hr
      have := (h.result r hr).1
      rw [hpc] at this
      cases this
  case readZero =>
    obtain ⟨⟨hpc, -⟩, hs⟩ := passed hstep
    cases hs
    exact h.move (by simp [hpc]) (by simp [hpc])
  case readAgain =>
    obtain ⟨⟨hpc, -⟩, hs⟩ := passed hstep
    cases hs
    exact h.move (by simp [hpc]) (by simp [hpc])
  case waitpid =>
    obtain ⟨hpc, hs⟩ := passed hstep
    split at hs
    · next e he =>
      -- the child has ended, so the loop is left with its status
      cases hs
      have hmove := @ExecInv.move _ _ h .leftLoop (by simp [hpc]) (by simp [hpc])
      refine { hmove with looping := fun hl => absurd rfl hl, reaped := fun _ => ⟨e, he, rfl⟩, result := fun r hr => ?_ }
      exact absurd (h.result r hr).1 (by simp [hpc])
    · cases hs
      exact h.move (by simp [hpc]) (by simp [hpc])
  case checkTime =>
    obtain ⟨hpc, hs⟩ := passed hstep
    split at hs
    · cases hs
      have hloop := h.looping (by simp [hpc]) (by simp [hpc])
      refine { h with looping := fun _ _ => hloop, killed_iff := by simp, result := fun r hr => ?_ }
      exact absurd (h.result r hr).1 (by simp [hpc])
    · cases hs
      exact h.move (by simp [hpc]) (by simp [hpc])
  case waitpidKilled =>
    obtain ⟨hpc, hs⟩ := passed hstep
    split at hs
    · next e he =>
      cases hs
      refine { h with
        looping := fun hl => absurd rfl hl
        killed_iff := iff_of_true (h.killed_iff.2 (.inl hpc)) (.inr rfl)
        reaped := fun _ => ⟨e, he, rfl⟩
        result := fun r hr => absurd (h.result r hr).1 (by simp [hpc]) }
    · cases hs
  case ret =>
    obtain ⟨hpc, hs⟩ := passed hstep
    cases hs
    have hfits := h.fits
    refine { h with
      looping := fun _ hr => absurd rfl hr
      killed_iff := h.killed_iff.trans (or_congr_left (iff_of_false (by simp [hpc]) (by simp)))
      result := fun r hr => ⟨rfl, ?_, (Option.some.inj hr).symm⟩ }
    dsimp only
    rw [if_pos (by omega)]

/-! ## How the loop is left -/

theorem good_step {s s' : ExecState} {a : ExecAct} (h : ExecInv outBufSize s) (hgood : Good s)
    (hharmless : Harmless outBufSize s a) (hstep : execStep outBufSize timeoutSec s a = some s') : Good s' := by
  cases a <;> simp only [execStep] at hstep
  case childWrites chunk =>
    obtain ⟨⟨hrunning, -⟩, hs⟩ := passed hstep
    cases hs
    intro hleft htimed
    obtain ⟨e, he, -⟩ := h.reaped (hgood hleft htimed).1
    rw [hrunning] at he
    cases he
  case childCloses =>
    obtain ⟨-, hs⟩ := passed hstep
    cases hs
    exact hgood
  case childEnds e =>
    obtain ⟨-, hs⟩ := passed hstep
    cases hs
    exact hgood
  case second =>
    cases hstep
    exact hgood
  case selectReady | selectTimeout | selectInterrupted | readAgain =>
    obtain ⟨-, hs⟩ := passed hstep
    cases hs
    rintro (hl | hl) <;> cases hl
  case readSome n =>
    obtain ⟨-, hs⟩ := passed hstep
    cases hs
    have hlt : ¬ s.outBuf.length + n ≥ outBufSize - 1 := not_le.2 hharmless
    intro hleft
    dsimp only at hleft
    rw [if_neg hlt] at hleft
    rcases hleft with hl | hl <;> cases hl
  case readZero => exact absurd hharmless not_false
  case waitpid =>
    obtain ⟨-, hs⟩ := passed hstep
    split at hs
    · next e he =>
      cases hs
      exact fun _ _ => ⟨rfl, hharmless (by rw [he]; rfl)⟩
    · cases hs
      rintro (hl | hl) <;> cases hl
  case checkTime =>
    obtain ⟨-, hs⟩ := passed hstep
    split at hs
    · cases hs
      rintro (hl | hl) <;> cases hl
    · cases hs
      rintro (hl | hl) <;> cases hl
  case waitpidKilled =>
    obtain ⟨-, hs⟩ := passed hstep
    split at hs
    · cases hs
      exact fun _ htimed => nomatch htimed
    · cases hs
  case ret =>
    obtain ⟨hpc, hs⟩ := passed hstep
    cases hs
    exact fun _ htimed => hgood (.inl hpc) htimed

/-- A step that is not harmless leaves the loop too early. -/
theorem bad_of_harmful {s s' : ExecState} {a : ExecAct} (h : ExecInv outBufSize s) (hharmful : ¬ Harmless outBufSize s a)
    (hstep : execStep outBufSize timeoutSec s a = some s') : Bad outBufSize s' := by
  cases a <;> simp only [execStep] at hstep
  case readZero =>
    obtain ⟨⟨hpc, -⟩, hs⟩ := passed hstep
    cases hs
    obtain ⟨-, hreaped, htimed⟩ := h.looping (by simp [hpc]) (by simp [hpc])
    exact ⟨.inl rfl, htimed, .inl hreaped⟩
  case readSome n =>
    obtain ⟨⟨hpc, -⟩, hs⟩ := passed hstep
    cases hs
    obtain ⟨-, hreaped, htimed⟩ := h.looping (by simp [hpc]) (by simp [hpc])
    refine ⟨.inl ?_, htimed, .inl hreaped⟩
    dsimp only
    rw [if_pos (not_lt.1 hharmful)]
  case waitpid =>
    obtain ⟨hpc, hs⟩ := passed hstep
    obtain ⟨hlt, -, htimed⟩ := h.looping (by simp [hpc]) (by simp [hpc])
    obtain ⟨hended, hpipe⟩ := Classical.not_imp.1 hharmful
    split at hs
    · cases hs
      exact ⟨.inl rfl, htimed, .inr ⟨hpipe, hlt⟩⟩
    · next hnone =>
      rw [hnone] at hended
      cases hended
  all_goals exact absurd trivial hharmful

theorem bad_step {s s' : ExecState} {a : ExecAct} (h : Bad outBufSize s)
    (hstep : execStep outBufSize timeoutSec s a = some s') : Bad outBufSize s' := by
  obtain ⟨hleft, htimed, hlost⟩ := h
  cases a <;> simp only [execStep] at hstep
  case childWrites chunk =>
    obtain ⟨-, hs⟩ := passed hstep
    cases hs
    refine ⟨hleft, htimed, hlost.imp_right fun h => ⟨fun hnil => h.1 (List.append_eq_nil_iff.1 hnil).1, h.2⟩⟩
  case childCloses | childEnds =>
    obtain ⟨-, hs⟩ := passed hstep
    cases hs
    exact ⟨hleft, htimed, hlost⟩
  case second =>
    cases hstep
    exact ⟨hleft, htimed, hlost⟩
  case ret =>
    obtain ⟨-, hs⟩ := passed hstep
    cases hs
    exact ⟨.inr rfl, htimed, hlost⟩
  -- the other actions are those of the loop
  all_goals
    obtain ⟨hpc, -⟩ := passed hstep
    rcases hleft with hl | hl <;> simp [hl] at hpc

theorem bad_run : ∀ {as : List ExecAct} {s s' : ExecState}, Bad outBufSize s →
    (execSystem outBufSize timeoutSec).run s as = some s' → Bad outBufSize s'
  | [], s, s', h, hrun => by
    cases hrun
    exact h
  | a :: as, s, s', h, hrun => by
    rw [System.run, Option.bind_eq_some_iff] at hrun
    obtain ⟨s1, hstep, hrun⟩ := hrun
    exact bad_run (bad_step h hstep) hrun

theorem harmlessRun_cons {s s1 : ExecState} {a : ExecAct} {as : List ExecAct}
    (hstep : execStep outBufSize timeoutSec s a = some s1) : HarmlessRun outBufSize timeoutSec s (a :: as) ↔
      Harmless outBufSize s a ∧ HarmlessRun outBufSize timeoutSec s1 as := by
  rw [HarmlessRun, hstep]

theorem execInv_run (hsize : 2 ≤ outBufSize) : ∀ {as : List ExecAct} {s s' : ExecState}, ExecInv outBufSize s →
    (execSystem outBufSize timeoutSec).run s as = some s' → ExecInv outBufSize s'
  | [], s, s', h, hrun => by
    cases hrun
    exact h
  | a :: as, s, s', h, hrun => by
    rw [System.run, Option.bind_eq_some_iff] at hrun
    obtain ⟨s1, hstep, hrun⟩ := hrun
    exact execInv_run hsize (execInv_step h hsize hstep) hrun

/-- A run ends good if all its steps are harmless, and bad otherwise. -/
theorem run_good_or_bad (hsize : 2 ≤ outBufSize) : ∀ {as : List ExecAct} {s s' : ExecState}, ExecInv outBufSize s → Good s →
    (execSystem outBufSize timeoutSec).run s as = some s' →
      (HarmlessRun outBufSize timeoutSec s as → Good s') ∧ (¬ HarmlessRun outBufSize timeoutSec s as → Bad outBufSize s')
  | [], s, s', h, hgood, hrun => by
    cases hrun
    exact ⟨fun _ => hgood, fun hnot => absurd trivial hnot⟩
  | a :: as, s, s', h, hgood, hrun => by
    rw [System.run, Option.bind_eq_some_iff] at hrun
    obtain ⟨s1, hstep, hrun⟩ := hrun
    rw [harmlessRun_cons hstep]
    by_cases hharmless : Harmless outBufSize s a
    · obtain ⟨hgood', hbad'⟩ := run_good_or_bad hsize (execInv_step h hsize hstep) (good_step h hgood hharmless hstep) hrun
      exact ⟨fun hall => hgood' hall.2, fun hnot => hbad' fun hrest => hnot ⟨hharmless, hrest⟩⟩
    · exact ⟨fun hall => absurd hall.1 hharmless, fun _ => bad_run (bad_of_harmful h hharmless hstep) hrun⟩

theorem reports_of_good {s : ExecState} {r : ExecResult} (h : ExecInv outBufSize s) (hgood : Good s) (hr : s.result = some r) :
    Reports outBufSize s r := by
  obtain ⟨hpc, hnul, rfl⟩ := h.result r hr
  refine ⟨?_, fun htimed => ?_⟩
  · rw [h.killed_iff, hpc]
    exact (or_iff_right nofun).symm
  · dsimp only at htimed
    obtain ⟨hreaped, hpipe⟩ := hgood (.inr hpc) htimed
    obtain ⟨e, he, hstatus⟩ := h.reaped hreaped
    refine ⟨e, he, hreaped, ?_, ?_, rfl, hnul⟩
    · simp only [htimed, Bool.false_eq_true, if_false, hstatus, exitCodeOf_status]
    · rw [h.split, hpipe, List.append_nil, List.take_of_length_le h.fits]

theorem not_reports_of_bad {s : ExecState} {r : ExecResult} (h : ExecInv outBufSize s) (hbad : Bad outBufSize s)
    (hr : s.result = some r) : ¬ Reports outBufSize s r := by
  obtain ⟨-, -, rfl⟩ := h.result r hr
  intro hreports
  obtain ⟨e, -, hreaped, -, hout, -, -⟩ := hreports.outcome hbad.timedOut
  rcases hbad.lost with hnot | ⟨hpipe, hlt⟩
  · rw [hreaped] at hnot
    cases hnot
  · -- the output is shorter than the buffer, and some of it is still in the pipe
    have hpos := List.length_pos_iff.2 hpipe
    have hlen := congrArg List.length hout
    rw [h.split, List.length_take, List.length_append] at hlen
    omega

/-- What a call returns is right exactly if no step of its run is harmful. -/
theorem executeCommand_reports_iff (hsize : 2 ≤ outBufSize) {as : List ExecAct} {s : ExecState} {r : ExecResult}
    (hrun : (execSystem outBufSize timeoutSec).run (execSystem outBufSize timeoutSec).init as = some s)
    (hr : s.result = some r) : Reports outBufSize s r ↔ HarmlessRun outBufSize timeoutSec {} as := by
  have hgood : Good {} := by rintro (hl | hl) <;> cases hl
  have hinv := execInv_run hsize (execInv_init hsize) hrun
  obtain ⟨hok, hbad⟩ := run_good_or_bad hsize (execInv_init hsize) hgood hrun
  constructor
  · intro hreports
    by_contra hnot
    exact not_reports_of_bad hinv (hbad hnot) hr hreports
  · exact fun hall => reports_of_good hinv (hok hall) hr

/-- A child whose output is read before it exits with status 3, between `select` and `waitpid`. -/
def luckyRun : List ExecAct :=
  [.childWrites [120], .selectReady, .readSome 1, .selectTimeout, .childEnds (.exited 3), .waitpid, .ret]

def luckyEnd : ExecState :=
  { pc := .returned, written := [120], outputOpen := false, ended := some (.exited 3), reaped := true, outBuf := [120]
    nulAt := some 1, status := 768, result := some ⟨3, false, 1⟩ }

theorem executeCommand_reports_lucky : Reports 16 luckyEnd ⟨3, false, 1⟩ := by
  have hrun : (execSystem 16 5).run (execSystem 16 5).init luckyRun = some luckyEnd := by decide +kernel
  exact (executeCommand_reports_iff (by decide) hrun rfl).2 ⟨trivial, trivial, by decide, trivial, trivial, fun _ => rfl, trivial, trivial⟩

/-- A child that writes and exits with status 1 before the parent reads is reported to have exited with status 0. -/
theorem exit_status_lost : ¬ ∀ (outBufSize : Nat) (timeoutSec : Int) (as : List ExecAct) (s : ExecState) (r : ExecResult),
    2 ≤ outBufSize → (execSystem outBufSize timeoutSec).run {} as = some s → s.result = some r → Reports outBufSize s r := by
  intro h
  have hreports := h 16 5 [.childWrites [120], .childEnds (.exited 1), .selectReady, .readSome 1, .selectReady, .readZero, .ret]
    _ _ (by decide) rfl rfl
  obtain ⟨e, he, -, hcode, -⟩ := hreports.outcome rfl
  cases he
  exact absurd hcode (by decide)

end BitForge.Agent
