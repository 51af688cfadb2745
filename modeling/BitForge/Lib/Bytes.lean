/-
Byte strings as files hold them: little-endian 32-bit words, padding to a multiple of 64, and
reading at an offset of a concatenation.
-/
import Mathlib.Data.List.Basic
import Mathlib.Tactic

namespace BitForge.Lib

/-- The byte at offset `i` (0 beyond the end). -/
def byteAt (bs : List UInt8) (i : Nat) : UInt8 := (bs[i]?).getD 0

/-- The four bytes of a 32-bit word, low byte first. -/
def le32 (n : Nat) : List UInt8 :=
  [UInt8.ofNat n, UInt8.ofNat (n / 2 ^ 8), UInt8.ofNat (n / 2 ^ 16), UInt8.ofNat (n / 2 ^ 24)]

/-- The 32-bit word at offset `i`. -/
def rd32 (bs : List UInt8) (i : Nat) : Nat :=
  (byteAt bs i).toNat + (byteAt bs (i + 1)).toNat * 2 ^ 8 + (byteAt bs (i + 2)).toNat * 2 ^ 16 +
    (byteAt bs (i + 3)).toNat * 2 ^ 24

/-- A 32-bit word as a C `int32_t`. -/
def toInt32 (n : Nat) : Int := if n % 2 ^ 32 < 2 ^ 31 then (n % 2 ^ 32 : Nat) else (n % 2 ^ 32 : Nat) - 2 ^ 32

/-- An `int` as a `size_t`. -/
def toSizeT (n : Int) : Nat := (n % 2 ^ 64).toNat

@[simp] theorem length_le32 (n : Nat) : (le32 n).length = 4 := rfl

/-! ## Reading in a concatenation -/

theorem byteAt_append_left {xs : List UInt8} (ys : List UInt8) {i : Nat} (h : i < xs.length) :
    byteAt (xs ++ ys) i = byteAt xs i := by
  unfold byteAt; rw [List.getElem?_append_left h]

theorem byteAt_append_right (xs ys : List UInt8) (i : Nat) : byteAt (xs ++ ys) (xs.length + i) = byteAt ys i := by
  unfold byteAt; rw [List.getElem?_append_right (Nat.le_add_right ..), Nat.add_sub_cancel_left]

theorem byteAt_replicate (n i : Nat) : byteAt (List.replicate n 0) i = 0 := by
  unfold byteAt
  rw [List.getElem?_replicate]
  split <;> rfl

theorem byteAt_of_ge {xs : List UInt8} {i : Nat} (h : xs.length ≤ i) : byteAt xs i = 0 := by
  unfold byteAt; rw [List.getElem?_eq_none h]; rfl

theorem rd32_append_right (xs ys : List UInt8) (i : Nat) : rd32 (xs ++ ys) (xs.length + i) = rd32 ys i := by
  simp only [rd32, Nat.add_assoc xs.length i, byteAt_append_right]

theorem rd32_append_left {xs : List UInt8} (ys : List UInt8) {i : Nat} (h : i + 4 ≤ xs.length) :
    rd32 (xs ++ ys) i = rd32 xs i := by
  unfold rd32
  rw [byteAt_append_left _ (by omega), byteAt_append_left _ (by omega), byteAt_append_left _ (by omega),
    byteAt_append_left _ (by omega)]

theorem rd32_le32 (n : Nat) : rd32 (le32 n) 0 = n % 2 ^ 32 := by
  simp only [rd32, le32, byteAt, List.getElem?_cons_zero, List.getElem?_cons_succ, Option.getD_some,
    UInt8.toNat_ofNat']
  omega

theorem rd32_le32_append (n : Nat) (ys : List UInt8) : rd32 (le32 n ++ ys) 0 = n % 2 ^ 32 := by
  rw [rd32_append_left ys (by simp), rd32_le32]

/-- The `i`-th word of a list of words. -/
theorem rd32_words : ∀ (ws : List Nat) (ys : List UInt8) {i : Nat}, i < ws.length →
    rd32 (ws.flatMap le32 ++ ys) (4 * i) = ws.getD i 0 % 2 ^ 32
  | [], _, i, h => absurd h (Nat.not_lt_zero i)
  | w :: ws, ys, 0, _ => by
    rw [List.flatMap_cons, List.append_assoc]
    exact rd32_le32_append w _
  | w :: ws, ys, i + 1, h => by
    have hi : 4 * (i + 1) = (le32 w).length + 4 * i := by rw [length_le32]; omega
    rw [List.flatMap_cons, List.append_assoc, hi, rd32_append_right, rd32_words ws ys (Nat.lt_of_succ_lt_succ h)]
    rfl

theorem toInt32_mod (n : Nat) : toInt32 (n % 2 ^ 32) = toInt32 n := by
  unfold toInt32; rw [Nat.mod_mod]

theorem toInt32_of_lt {n : Nat} (h : n < 2 ^ 31) : toInt32 n = n := by
  unfold toInt32
  rw [Nat.mod_eq_of_lt (by omega), if_pos h]

theorem toSizeT_eq {n : Int} (h0 : 0 ≤ n) (hlt : n < 2 ^ 64) : (toSizeT n : Int) = n := by
  unfold toSizeT
  rw [Int.emod_eq_of_lt h0 hlt, Int.toNat_of_nonneg h0]

/-! ## Padding to 64 bytes -/

def alignUp (n : Nat) : Nat := n + (64 - n % 64) % 64

/-- Appends zeros up to a multiple of 64. -/
def padTo64 (p : List UInt8) : List UInt8 := p ++ List.replicate ((64 - p.length % 64) % 64) 0

@[simp] theorem length_padTo64 (p : List UInt8) : (padTo64 p).length = alignUp p.length := by
  simp [padTo64, alignUp]

theorem alignUp_mod (n : Nat) : alignUp n % 64 = 0 := by unfold alignUp; omega

theorem le_alignUp (n : Nat) : n ≤ alignUp n := Nat.le_add_right ..

theorem alignUp_add {n : Nat} (h : n % 64 = 0) (m : Nat) : alignUp (n + m) = n + alignUp m := by
  unfold alignUp; omega

/-- The bytes of a padded string beyond its own are 0. -/
theorem byteAt_padTo64_ge {p : List UInt8} {i : Nat} (h : p.length ≤ i) : byteAt (padTo64 p) i = 0 := by
  obtain ⟨j, rfl⟩ := Nat.exists_eq_add_of_le h
  unfold padTo64
  rw [byteAt_append_right, byteAt_replicate]

end BitForge.Lib
