/-
Texts put together by `snprintf` calls at a running offset: `off += snprintf(buf + off, total - off, ..)`. Each call is
kept with its arguments, so that what it writes can be compared with the buffer. The offset adds up the untruncated
lengths and may pass the end, where the room is negative and the size argument a huge `size_t`.
-/
import BitForge.Lib.Bytes

namespace BitForge.Lib

/-- A call at `buf + off` with its size argument and the text that the format yields. -/
structure SnprintfCall where
  off : Int
  size : Nat
  text : List UInt8
deriving DecidableEq, Repr

namespace SnprintfCall

/-- The characters that are written before the NUL. -/
def kept (c : SnprintfCall) : Nat := min c.text.length (c.size - 1)

/-- The call writes the cell `a`. -/
def Writes (c : SnprintfCall) (a : Int) : Prop := 0 < c.size ∧ c.off ≤ a ∧ a ≤ c.off + c.kept

instance (c : SnprintfCall) (a : Int) : Decidable (c.Writes a) := by
  unfold Writes; infer_instance

/-- The memory after the call, addressed from the start of the buffer. -/
def run (c : SnprintfCall) (mem : Int → UInt8) : Int → UInt8 := fun a =>
  if c.Writes a then if a = c.off + c.kept then 0 else c.text.getD (a - c.off).toNat 0 else mem a

def runAll (calls : List SnprintfCall) (mem : Int → UInt8) : Int → UInt8 := calls.foldl (fun m c => c.run m) mem

end SnprintfCall

/-- The calls made so far and the offset. -/
structure Printed where
  calls : List SnprintfCall := []
  off : Int := 0
deriving DecidableEq, Repr

/-- `off += snprintf(buf + off, total - off, ..)` -/
def Printed.snprintf (total : Int) (p : Printed) (text : List UInt8) : Printed :=
  { calls := p.calls ++ [⟨p.off, toSizeT (total - p.off), text⟩]
    off := p.off + text.length }

/-- A loop over lines that goes on while `slack` bytes are left. -/
def Printed.lines (total slack : Int) : Printed → List (List UInt8) → Printed
  | p, [] => p
  | p, line :: rest => if p.off < total - slack then (p.snprintf total line).lines total slack rest else p

/-- A header, such a loop and a footer. -/
def printAll (total slack : Int) (header : List UInt8) (rest : List (List UInt8)) (footer : List UInt8) :
    List SnprintfCall :=
  ((((({} : Printed).snprintf total header).lines total slack rest).snprintf total footer)).calls

/-! ## Staying inside -/

/-- The calls that are made one after the other from the offset `off`. -/
inductive Chained : Int → List SnprintfCall → Prop
  | nil (off : Int) : Chained off []
  | cons {c : SnprintfCall} {calls : List SnprintfCall} (h : Chained (c.off + c.text.length) calls) : Chained c.off (c :: calls)

/-- Offset and size of a call fit the buffer. -/
def SnprintfCall.Fits (total : Int) (c : SnprintfCall) : Prop := 0 ≤ c.off ∧ c.off ≤ total ∧ (c.size : Int) = total - c.off

/-- Every call gets an offset in the buffer and the room that is left, nothing is written outside, and a NUL stands in
the buffer at the end. -/
structure StaysInside (total : Int) (calls : List SnprintfCall) : Prop where
  fits : ∀ c ∈ calls, c.Fits total
  inside : ∀ c ∈ calls, ∀ a, c.Writes a → 0 ≤ a ∧ a < total
  terminated : ∀ mem, ∃ a, 0 ≤ a ∧ a < total ∧ SnprintfCall.runAll calls mem a = 0

/-- The header fits, and so does every line that starts where `slack` bytes are left. -/
def LinesFit (total slack : Int) (off : Int) (rest : List (List UInt8)) : Prop :=
  off ≤ total ∧ ∀ k < rest.length, off + ((rest.take k).map List.length).sum < total - slack →
    off + ((rest.take (k + 1)).map List.length).sum ≤ total

instance (total slack off : Int) (rest : List (List UInt8)) : Decidable (LinesFit total slack off rest) := by
  unfold LinesFit; infer_instance

variable {total slack : Int}

theorem SnprintfCall.Fits.inside {c : SnprintfCall} (h : c.Fits total) {a : Int} (hw : c.Writes a) : 0 ≤ a ∧ a < total := by
  obtain ⟨h0, -, hsize⟩ := h
  obtain ⟨hpos, hge, hle⟩ := hw
  have hkept : c.kept ≤ c.size - 1 := Nat.min_le_right ..
  omega

/-- After a call the memory has a NUL where the offset points to, or in the last cell. -/
theorem SnprintfCall.Fits.run_nul {c : SnprintfCall} (h : c.Fits total) (mem : Int → UInt8)
    (hmem : c.off = total → mem (total - 1) = 0) : c.run mem (min (c.off + c.text.length) (total - 1)) = 0 := by
  obtain ⟨h0, hle, hsize⟩ := h
  rcases Nat.eq_zero_or_pos c.size with hzero | hpos
  · have hend : min (c.off + c.text.length) (total - 1) = total - 1 := by omega
    have hnot : ¬ c.Writes (total - 1) := fun hw => by have := hw.1; omega
    unfold SnprintfCall.run
    rw [hend, if_neg hnot]
    exact hmem (by omega)
  · have hend : min (c.off + c.text.length) (total - 1) = c.off + c.kept := by
      unfold SnprintfCall.kept
      omega
    unfold SnprintfCall.run
    rw [hend, if_pos ⟨hpos, by omega, le_refl _⟩, if_pos rfl]

theorem Chained.runAll_nul {off : Int} {calls : List SnprintfCall} (h : Chained off calls) :
    (∀ c ∈ calls, c.Fits total) → ∀ mem, 0 < total → 0 ≤ off → mem (min off (total - 1)) = 0 →
      ∃ a, 0 ≤ a ∧ a < total ∧ SnprintfCall.runAll calls mem a = 0 := by
  induction h with
  | nil off => exact fun _ mem _ _ hmem => ⟨min off (total - 1), by omega, by omega, hmem⟩
  | @cons c calls h ih =>
    intro hfits mem hpos hoff hmem
    have hc := hfits c List.mem_cons_self
    refine ih (fun c' hc' => hfits c' (List.mem_cons_of_mem _ hc')) (c.run mem) hpos (by omega) (hc.run_nul mem fun hend => ?_)
    rwa [hend, min_eq_right (by omega)] at hmem

/-- The first call of a buffer that is not empty leaves a NUL. -/
theorem Chained.terminated {off : Int} {calls : List SnprintfCall} (h : Chained off calls) (hne : calls ≠ []) (hoff : off = 0)
    (hpos : 0 < total) (hfits : ∀ c ∈ calls, c.Fits total) (mem : Int → UInt8) :
    ∃ a, 0 ≤ a ∧ a < total ∧ SnprintfCall.runAll calls mem a = 0 := by
  cases h with
  | nil => exact absurd rfl hne
  | @cons c calls h =>
    have hc := hfits c List.mem_cons_self
    exact h.runAll_nul (fun c' hc' => hfits c' (List.mem_cons_of_mem _ hc')) (c.run mem) hpos (by omega)
      (hc.run_nul mem fun hend => absurd hend (by omega))

namespace Printed

/-- What the calls so far leave to say: calls chained behind them are chained from the start. -/
def Starts (p : Printed) : Prop := ∀ more, Chained p.off more → Chained 0 (p.calls ++ more)

theorem Starts.snprintf {p : Printed} (h : p.Starts) (text : List UInt8) : (p.snprintf total text).Starts := by
  intro more hmore
  unfold Printed.snprintf
  rw [List.append_assoc]
  exact h _ (.cons (c := ⟨p.off, toSizeT (total - p.off), text⟩) hmore)

theorem Starts.lines : ∀ {rest : List (List UInt8)} {p : Printed}, p.Starts → (p.lines total slack rest).Starts
  | [], _, h => h
  | line :: rest, p, h => by
    rw [Printed.lines]
    split
    · exact (h.snprintf line).lines
    · exact h

/-- Every call of the loop fits: it starts where the slack is left. -/
theorem lines_fits (htotal : total < 2 ^ 64) (hslack : 0 ≤ slack) : ∀ {rest : List (List UInt8)} {p : Printed}, 0 ≤ p.off →
    (∀ c ∈ p.calls, c.Fits total) → 0 ≤ (p.lines total slack rest).off ∧ ∀ c ∈ (p.lines total slack rest).calls, c.Fits total
  | [], p, hoff, h => ⟨hoff, h⟩
  | line :: rest, p, hoff, h => by
    rw [Printed.lines]
    split
    · next hroom =>
      refine lines_fits htotal hslack (by dsimp only [Printed.snprintf]; omega) fun c hc => ?_
      rcases List.mem_append.1 hc with hc | hc
      · exact h c hc
      · rw [List.mem_singleton.1 hc]
        exact ⟨hoff, by dsimp only; omega, toSizeT_eq (by omega) (by omega)⟩
    · exact ⟨hoff, h⟩

/-- The offset after the loop is in the buffer exactly if each line that it prints fits. -/
theorem lines_off_le_iff : ∀ {rest : List (List UInt8)} {p : Printed}, 0 ≤ slack →
    ((p.lines total slack rest).off ≤ total ↔ LinesFit total slack p.off rest)
  | [], p, _ => ⟨fun h => ⟨h, nofun⟩, fun h => h.1⟩
  | line :: rest, p, hslack => by
    rw [Printed.lines]
    split
    · next hroom =>
      rw [lines_off_le_iff hslack]
      dsimp only [Printed.snprintf]
      constructor
      · rintro ⟨hle, hall⟩
        refine ⟨by omega, fun k hk hstart => ?_⟩
        cases k with
        | zero =>
          rw [Nat.zero_add, List.take_succ_cons, List.take_zero, List.map_singleton, List.sum_singleton]
          exact hle
        | succ k =>
          rw [List.take_succ_cons, List.map_cons, List.sum_cons] at hstart ⊢
          have := hall k (Nat.lt_of_succ_lt_succ hk) (by omega)
          omega
      · rintro ⟨-, hall⟩
        have hfirst := hall 0 (Nat.succ_pos _) (by rw [List.take_zero]; simpa using hroom)
        rw [Nat.zero_add, List.take_succ_cons, List.take_zero, List.map_singleton, List.sum_singleton] at hfirst
        refine ⟨hfirst, fun k hk hstart => ?_⟩
        have := hall (k + 1) (Nat.succ_lt_succ hk) (by rw [List.take_succ_cons, List.map_cons, List.sum_cons]; omega)
        rw [List.take_succ_cons, List.map_cons, List.sum_cons] at this
        omega
    · next hroom =>
      -- the loop stops here, and no line that starts later counts
      exact ⟨fun hle => ⟨hle, fun k _ hstart => by omega⟩, fun h => h.1⟩

end Printed

/-- A text stays in its buffer exactly if the header and each printed line fit. -/
theorem printAll_inside_iff (hpos : 0 < total) (htotal : total < 2 ^ 63) (hslack : 0 ≤ slack) (header footer : List UInt8)
    (rest : List (List UInt8)) :
    StaysInside total (printAll total slack header rest footer) ↔ LinesFit total slack header.length rest := by
  have hstart : ((({} : Printed).snprintf total header)).off = header.length := by
    dsimp only [Printed.snprintf]
    omega
  have hheader : ∀ c ∈ ((({} : Printed).snprintf total header)).calls, c.Fits total := by
    intro c hc
    rw [List.mem_singleton.1 hc]
    exact ⟨le_refl _, hpos.le, toSizeT_eq (by dsimp only; omega) (by dsimp only; omega)⟩
  obtain ⟨hoff, hlines⟩ := @Printed.lines_fits total slack (by omega) hslack rest _ (by rw [hstart]; omega) hheader
  rw [← hstart, ← Printed.lines_off_le_iff hslack]
  constructor
  · exact fun h => (h.fits _ (List.mem_append_right _ (List.mem_singleton.2 rfl))).2.1
  · intro hle
    have hfits : ∀ c ∈ printAll total slack header rest footer, c.Fits total := by
      intro c hc
      rcases List.mem_append.1 hc with hc | hc
      · exact hlines c hc
      · rw [List.mem_singleton.1 hc]
        exact ⟨hoff, hle, toSizeT_eq (by omega) (by omega)⟩
    refine ⟨hfits, fun c hc a hw => (hfits c hc).inside hw, fun mem => ?_⟩
    have hchain : Chained 0 (printAll total slack header rest footer) := by
      have hempty : ({} : Printed).Starts := fun more h => h
      have hall : (((({} : Printed).snprintf total header).lines total slack rest).snprintf total footer).Starts :=
        (hempty.snprintf header).lines.snprintf footer
      rw [← List.append_nil (printAll ..)]
      exact hall [] (.nil _)
    refine hchain.terminated (fun hnil => ?_) rfl hpos hfits mem
    exact absurd (List.append_eq_nil_iff.1 hnil).2 (List.cons_ne_nil _ _)

end BitForge.Lib
