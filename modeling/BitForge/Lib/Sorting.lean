/-
In-place sorting of a list by a three-way comparison, as C code does it: writes and swaps that
fail outside the list, and what sorted means for a comparison that is only a preorder.
-/
import Mathlib.Tactic

namespace BitForge.Lib

/-- A three-way comparison whose sign is a total preorder. -/
structure Comparator {α : Type} (cmp : α → α → Int) : Prop where
  flip : ∀ a b, 0 < cmp a b ↔ cmp b a < 0
  trans : ∀ {a b c}, cmp a b ≤ 0 → cmp b c ≤ 0 → cmp a c ≤ 0

section Comparator

variable {α : Type} {cmp : α → α → Int}

theorem Comparator.le_of_pos (h : Comparator cmp) {a b : α} (hab : 0 < cmp a b) : cmp b a ≤ 0 :=
  ((h.flip a b).1 hab).le

theorem Comparator.ge_of_not_neg (h : Comparator cmp) {a b : α} (hab : ¬ cmp a b < 0) : cmp b a ≤ 0 := by
  by_contra hc
  exact hab ((h.flip b a).1 (by omega))

theorem Comparator.le_refl (h : Comparator cmp) (a : α) : cmp a a ≤ 0 := by
  by_contra hc
  have := (h.flip a a).1 (by omega)
  omega

theorem Comparator.comap {β : Type} (h : Comparator cmp) (f : β → α) : Comparator fun a b => cmp (f a) (f b) :=
  ⟨fun _ _ => h.flip _ _, h.trans⟩

end Comparator

/-- No entry is above a later one. -/
def SortedBy {α : Type} (cmp : α → α → Int) (l : List α) : Prop := l.Pairwise fun a b => cmp a b ≤ 0

section Writes

variable {α : Type}

/-- `arr[k] = v`, which fails outside the array. -/
def store (arr : List α) (k : Nat) (v : α) : Option (List α) := if k < arr.length then some (arr.set k v) else none

/-- The exchange of two cells. -/
def swapCells (arr : List α) (a b : Nat) : Option (List α) := do
  let x ← arr[a]?
  let y ← arr[b]?
  return (arr.set a y).set b x

theorem store_of_lt {arr : List α} {k : Nat} (v : α) (h : k < arr.length) : store arr k v = some (arr.set k v) := if_pos h

theorem store_mid (p s : List α) (y v : α) : store (p ++ y :: s) p.length v = some (p ++ v :: s) := by
  rw [store_of_lt v (by simp), List.set_append_right _ _ (Nat.le_refl _), Nat.sub_self, List.set_cons_zero]

theorem swapCells_of_lt {arr : List α} {a b : Nat} (ha : a < arr.length) (hb : b < arr.length) :
    swapCells arr a b = some ((arr.set a arr[b]).set b arr[a]) := by
  unfold swapCells
  rw [List.getElem?_eq_getElem ha, List.getElem?_eq_getElem hb]
  rfl

/-- What an exchange does: the cells named change places, every other one stays. -/
theorem swapCells_spec {arr : List α} {a b : Nat} (ha : a < arr.length) (hb : b < arr.length) :
    ∃ out, swapCells arr a b = some out ∧ out.Perm arr ∧ out[a]? = arr[b]? ∧ out[b]? = arr[a]? ∧
      ∀ k, k ≠ a → k ≠ b → out[k]? = arr[k]? := by
  refine ⟨_, swapCells_of_lt ha hb, List.set_set_perm ha hb, ?_, ?_, fun k hka hkb => ?_⟩
  · by_cases hab : b = a
    · subst hab
      rw [List.getElem?_set_self (by simpa using hb), List.getElem?_eq_getElem hb]
    · rw [List.getElem?_set_ne hab, List.getElem?_set_self ha, List.getElem?_eq_getElem hb]
  · rw [List.getElem?_set_self (by simpa using hb), List.getElem?_eq_getElem ha]
  · rw [List.getElem?_set_ne (Ne.symm hkb), List.getElem?_set_ne (Ne.symm hka)]

end Writes

end BitForge.Lib
