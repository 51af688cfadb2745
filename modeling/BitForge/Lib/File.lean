/-
Files of `stdio.h`: bytes and a position. A seek or a write may fail; a failed write has written a
proper part of its bytes.
-/
import Mathlib.Tactic

namespace BitForge.Lib

/-- The outcome of an I/O call; a write that fails has written that many bytes. -/
inductive IoOutcome
  | ok
  | fail (written : Nat)
deriving DecidableEq, Repr

structure File where
  bytes : List UInt8
  pos : Nat
deriving DecidableEq, Repr

namespace File

/-- The bytes `bs` at the position, over those that stand there. -/
def put (f : File) (bs : List UInt8) : File :=
  { bytes := f.bytes.take f.pos ++ bs ++ f.bytes.drop (f.pos + bs.length)
    pos := f.pos + bs.length }

/-- `fwrite`, and whether all bytes are written. -/
def write (f : File) (bs : List UInt8) : IoOutcome → File × Bool
  | .ok => (f.put bs, true)
  | .fail written => (f.put (bs.take (min written (bs.length - 1))), false)

/-- Writes one after the other up to the first that fails. -/
def writeAll : File → List (List UInt8 × IoOutcome) → File × Bool
  | f, [] => (f, true)
  | f, (bs, o) :: rest =>
    match f.write bs o with
    | (f, true) => writeAll f rest
    | (f, false) => (f, false)

/-- `fseek(fp, 0, SEEK_END)`. -/
def seekEnd (f : File) : IoOutcome → File × Bool
  | .ok => ({ f with pos := f.bytes.length }, true)
  | .fail _ => (f, false)

def rewind (f : File) : File := { f with pos := 0 }

/-- `fread` of `n` bytes; `none` when there are fewer. -/
def read (f : File) (n : Nat) : Option (List UInt8 × File) :=
  if f.pos + n ≤ f.bytes.length then some ((f.bytes.drop f.pos).take n, { f with pos := f.pos + n }) else none

theorem put_end {f : File} (h : f.pos = f.bytes.length) (bs : List UInt8) :
    f.put bs = ⟨f.bytes ++ bs, (f.bytes ++ bs).length⟩ := by
  unfold put
  rw [h, List.take_length, List.drop_eq_nil_of_le (Nat.le_add_right ..), List.append_nil, List.length_append]

/-- Writing over a start of the same length. -/
theorem put_start {old new rest : List UInt8} (h : new.length = old.length) :
    (File.mk (old ++ rest) 0).put new = ⟨new ++ rest, new.length⟩ := by
  unfold put
  dsimp only
  rw [Nat.zero_add, h, List.take_zero, List.nil_append, List.drop_left]

theorem writeAll_ok : ∀ (parts : List (List UInt8 × IoOutcome)) {f : File}, (∀ p ∈ parts, p.2 = .ok) →
    f.pos = f.bytes.length →
      f.writeAll parts = (⟨f.bytes ++ parts.flatMap Prod.fst, (f.bytes ++ parts.flatMap Prod.fst).length⟩, true)
  | [], f, _, hpos => by
    obtain ⟨bytes, pos⟩ := f
    obtain rfl : pos = bytes.length := hpos
    simp [writeAll]
  | (bs, o) :: rest, f, h, hpos => by
    obtain rfl : o = .ok := h (bs, o) (List.mem_cons_self ..)
    unfold writeAll write
    dsimp only
    rw [put_end hpos, writeAll_ok rest (fun p hp => h p (List.mem_cons_of_mem _ hp)) rfl]
    simp only [List.flatMap_cons, List.append_assoc]

theorem writeAll_fault : ∀ (parts : List (List UInt8 × IoOutcome)) (f : File), ¬ (∀ p ∈ parts, p.2 = .ok) →
    (f.writeAll parts).2 = false
  | [], _, h => absurd (fun p hp => absurd hp List.not_mem_nil) h
  | (bs, .fail k) :: rest, f, _ => rfl
  | (bs, .ok) :: rest, f, h => by
    refine writeAll_fault rest _ fun hrest => h ?_
    intro p hp
    rcases List.mem_cons.1 hp with rfl | hp
    · rfl
    · exact hrest p hp

/-- A read of the bytes `bs` that stand after `pre`. -/
theorem read_append {bytes pre bs post : List UInt8} {pos n : Nat} (h : bytes = pre ++ (bs ++ post))
    (hpos : pos = pre.length) (hn : n = bs.length) : (File.mk bytes pos).read n = some (bs, ⟨bytes, pos + n⟩) := by
  subst h hpos hn
  unfold read
  dsimp only
  rw [if_pos (by rw [List.length_append, List.length_append]; omega), List.drop_left, List.take_left]

end File

end BitForge.Lib
