/-
The index of the vocabulary (tokenizer_load.c, tokenizer_gguf.c, tokenizer_encode.c): the positions
of the vocabulary sorted by `strcmp` with a quicksort that ends in an insertion sort, and the binary
search in it.
-/
import BitForge.Lib.Sorting
import BitForge.Lib.CString

namespace BitForge.Tokenizer

open Lib

/-! ## The sort -/

section Sorting

variable {α : Type} (cmp : α → α → Int)

/-- The inner loop of the insertion sort with `j + 1` cells left of the gap: larger cells move right. -/
def shiftRight (key : α) : Nat → List α → Option (List α)
  | 0, arr => store arr 0 key
  | j + 1, arr => do
    let x ← arr[j]?
    if 0 < cmp x key then
      let arr ← store arr (j + 1) x
      shiftRight key j arr
    else store arr (j + 1) key

/-- The outer loop from cell `i` on, of which `k` are left. -/
def insertFrom : Nat → Nat → List α → Option (List α)
  | 0, _, arr => some arr
  | k + 1, i, arr => do
    let key ← arr[i]?
    let arr ← shiftRight cmp key i arr
    insertFrom k (i + 1) arr

def vocabInsertionSort (arr : List α) : Option (List α) := insertFrom cmp (arr.length - 1) 1 arr

/-- Three exchanges that leave the median of the first, the middle and the last cell in the middle,
and one that puts it before the last. -/
def medianOfThree (arr : List α) : Option (List α) := do
  let n := arr.length
  let mid := n / 2
  let arr ← orderCells arr 0 mid
  let arr ← orderCells arr 0 (n - 1)
  let arr ← orderCells arr mid (n - 1)
  swapCells arr mid (n - 2)
where
  orderCells (arr : List α) (a b : Nat) : Option (List α) := do
    let x ← arr[a]?
    let y ← arr[b]?
    if 0 < cmp x y then swapCells arr a b else return arr

/-- `while (strcmp(vocab[arr[++i]], vocab[pivot]) < 0) {}`. -/
def scanUp (arr : List α) (pivot : α) : Nat → Nat → Option Nat
  | 0, _ => none
  | fuel + 1, i => do
    let x ← arr[i + 1]?
    if cmp x pivot < 0 then scanUp arr pivot fuel (i + 1) else return i + 1

/-- `while (strcmp(vocab[arr[--j]], vocab[pivot]) > 0) {}`. -/
def scanDown (arr : List α) (pivot : α) : Nat → Option Nat
  | 0 => none
  | j + 1 => do
    let x ← arr[j]?
    if 0 < cmp x pivot then scanDown arr pivot j else return j

/-- The partition loop: the array it leaves and the place of the pivot. -/
def partitionLoop (pivot : α) : Nat → List α → Nat → Nat → Option (List α × Nat)
  | 0, _, _, _ => none
  | fuel + 1, arr, i, j => do
    let i ← scanUp cmp arr pivot arr.length i
    let j ← scanDown cmp arr pivot j
    if j ≤ i then return (arr, i)
    let arr ← swapCells arr i j
    partitionLoop pivot fuel arr i j

/-- The slice of the array that one call of the quicksort works on. The part it recurses on and the
part its loop goes on with are disjoint slices, the smaller one is sorted first. -/
def vocabQuicksort : Nat → List α → Option (List α)
  | 0, _ => none
  | fuel + 1, arr =>
    let n := arr.length
    if 16 < n then do
      let arr ← medianOfThree cmp arr
      let pivot ← arr[n - 2]?
      let (arr, i) ← partitionLoop cmp pivot n arr 0 (n - 2)
      let arr ← swapCells arr i (n - 2)
      let middle ← arr[i]?
      if i < n - i - 1 then do
        let left ← vocabQuicksort fuel (arr.take i)
        let right ← vocabQuicksort fuel (arr.drop (i + 1))
        return left ++ middle :: right
      else do
        let right ← vocabQuicksort fuel (arr.drop (i + 1))
        let left ← vocabQuicksort fuel (arr.take i)
        return left ++ middle :: right
    else vocabInsertionSort cmp arr

end Sorting

/-! ## The sort sorts -/

section SortSpec

variable {α : Type} {cmp : α → α → Int}

/-- The inner loop puts the key behind the cells that are not above it. -/
theorem shiftRight_spec (key : α) : ∀ (p : List α) (y : α) (s : List α),
    ∃ a b, p = a ++ b ∧ shiftRight cmp key p.length (p ++ y :: s) = some (a ++ key :: b ++ s) ∧
      (∀ x ∈ b, 0 < cmp x key) ∧ ∀ x ∈ a.getLast?, ¬ 0 < cmp x key := by
  intro p
  induction p using List.reverseRecOn with
  | nil => exact fun y s => ⟨[], [], rfl, rfl, nofun, nofun⟩
  | append_singleton p x ih =>
    intro y s
    have hx : (p ++ [x] ++ y :: s)[p.length]? = some x := by
      rw [List.append_assoc, List.getElem?_append_right (Nat.le_refl _), Nat.sub_self]
      rfl
    rw [List.length_append, List.length_singleton, shiftRight, hx, Option.bind_eq_bind, Option.bind_some]
    by_cases hgt : 0 < cmp x key
    · obtain ⟨a, b, rfl, hshift, habove, hlast⟩ := ih x (x :: s)
      refine ⟨a, b ++ [x], by rw [List.append_assoc], ?_, ?_, hlast⟩
      · have hstore := store_mid ((a ++ b) ++ [x]) s y x
        rw [List.length_append, List.length_singleton] at hstore
        rw [if_pos hgt, hstore, Option.bind_eq_bind, Option.bind_some, List.append_assoc, List.singleton_append, hshift]
        simp
      · intro z hz
        rcases List.mem_append.1 hz with hz | hz
        · exact habove z hz
        · rwa [List.mem_singleton.1 hz]
    · refine ⟨p ++ [x], [], by rw [List.append_nil], ?_, nofun, ?_⟩
      · have hstore := store_mid (p ++ [x]) s y key
        rw [List.length_append, List.length_singleton] at hstore
        rw [if_neg hgt, hstore]
        simp
      · intro z hz
        rw [List.getLast?_concat, Option.mem_some_iff] at hz
        rwa [← hz]

/-- One round of the insertion sort: the sorted part grows by one cell. -/
theorem shiftRight_sorted (hcmp : Comparator cmp) {p : List α} (key : α) (s : List α) (hp : SortedBy cmp p) :
    ∃ q, shiftRight cmp key p.length (p ++ key :: s) = some (q ++ s) ∧ q.Perm (p ++ [key]) ∧ SortedBy cmp q := by
  obtain ⟨a, b, rfl, hshift, habove, hlast⟩ := @shiftRight_spec α cmp key p key s
  refine ⟨a ++ key :: b, hshift, ?_, ?_⟩
  · rw [List.append_assoc]
    exact (List.perm_append_singleton key b).symm.append_left a
  · obtain ⟨ha, hb, hab⟩ := List.pairwise_append.1 hp
    refine List.pairwise_append.2 ⟨ha, List.pairwise_cons.2 ⟨fun z hz => hcmp.le_of_pos (habove z hz), hb⟩, ?_⟩
    -- the last cell of `a` is not above the key, and the ones before it are not above that cell
    have hkey : ∀ x ∈ a, cmp x key ≤ 0 := by
      intro x hx
      obtain ⟨a', last, rfl⟩ := (List.eq_nil_or_concat a).resolve_left (List.ne_nil_of_mem hx)
      have hle : cmp last key ≤ 0 := Int.not_lt.1 (hlast last (by rw [List.concat_eq_append, List.getLast?_concat]; rfl))
      rw [List.concat_eq_append] at ha hx
      rcases List.mem_append.1 hx with hx | hx
      · exact hcmp.trans ((List.pairwise_append.1 ha).2.2 x hx last (List.mem_singleton_self _)) hle
      · rwa [List.mem_singleton.1 hx]
    intro x hx z hz
    rcases List.mem_cons.1 hz with rfl | hz
    · exact hkey x hx
    · exact hab x hx z hz

theorem insertFrom_spec (hcmp : Comparator cmp) : ∀ (s p : List α), SortedBy cmp p →
    ∃ out, insertFrom cmp s.length p.length (p ++ s) = some out ∧ out.Perm (p ++ s) ∧ SortedBy cmp out
  | [], p, hp => ⟨p, by rw [List.append_nil]; rfl, by rw [List.append_nil], hp⟩
  | key :: s, p, hp => by
    have hkey : (p ++ key :: s)[p.length]? = some key := by
      rw [List.getElem?_append_right (Nat.le_refl _), Nat.sub_self]
      rfl
    obtain ⟨q, hshift, hperm, hq⟩ := shiftRight_sorted hcmp key s hp
    obtain ⟨out, hout, hpermOut, hsorted⟩ := insertFrom_spec hcmp s q hq
    have hlen : q.length = p.length + 1 := by
      rw [hperm.length_eq, List.length_append, List.length_singleton]
    refine ⟨out, ?_, hpermOut.trans ?_, hsorted⟩
    · rw [List.length_cons, insertFrom, hkey, Option.bind_eq_bind, Option.bind_some, hshift, Option.bind_eq_bind, Option.bind_some,
        ← hlen, hout]
    · rw [show p ++ key :: s = p ++ [key] ++ s by simp]
      exact hperm.append_right s

theorem vocabInsertionSort_spec (hcmp : Comparator cmp) (arr : List α) :
    ∃ out, vocabInsertionSort cmp arr = some out ∧ out.Perm arr ∧ SortedBy cmp out := by
  cases arr with
  | nil => exact ⟨[], rfl, .refl _, .nil⟩
  | cons x s => exact insertFrom_spec hcmp s [x] (List.pairwise_singleton ..)

theorem orderCells_spec (hcmp : Comparator cmp) {arr : List α} {a b : Nat} {x y : α} (hx : arr[a]? = some x)
    (hy : arr[b]? = some y) :
    ∃ out u v, medianOfThree.orderCells cmp arr a b = some out ∧ out.Perm arr ∧ out[a]? = some u ∧ out[b]? = some v ∧
      cmp u v ≤ 0 ∧ (u = x ∧ v = y ∨ u = y ∧ v = x) ∧ ∀ k, k ≠ a → k ≠ b → out[k]? = arr[k]? := by
  unfold medianOfThree.orderCells
  rw [hx, hy, Option.bind_eq_bind, Option.bind_some, Option.bind_some]
  by_cases hgt : 0 < cmp x y
  · obtain ⟨ha, rfl⟩ := List.getElem?_eq_some_iff.1 hx
    obtain ⟨hb, rfl⟩ := List.getElem?_eq_some_iff.1 hy
    obtain ⟨out, hswap, hperm, houta, houtb, hother⟩ := swapCells_spec ha hb
    rw [if_pos hgt]
    exact ⟨out, _, _, hswap, hperm, houta.trans hy, houtb.trans hx, hcmp.le_of_pos hgt, .inr ⟨rfl, rfl⟩, hother⟩
  · rw [if_neg hgt]
    exact ⟨arr, x, y, rfl, .refl _, hx, hy, Int.not_lt.1 hgt, .inl ⟨rfl, rfl⟩, fun _ _ _ => rfl⟩

/-- The pivot before the last cell is between the first and the last one. -/
theorem medianOfThree_spec (hcmp : Comparator cmp) {arr : List α} (hn : 16 < arr.length) :
    ∃ out lo p hi, medianOfThree cmp arr = some out ∧ out.Perm arr ∧ out[0]? = some lo ∧ out[arr.length - 2]? = some p ∧
      out[arr.length - 1]? = some hi ∧ cmp lo p ≤ 0 ∧ cmp p hi ≤ 0 := by
  obtain ⟨n, hlen⟩ : ∃ n, arr.length = n := ⟨_, rfl⟩
  rw [hlen] at hn ⊢
  have hget (k : Nat) (hk : k < n) : ∃ x, arr[k]? = some x := ⟨_, List.getElem?_eq_getElem (hlen ▸ hk)⟩
  obtain ⟨x, hx⟩ := hget 0 (by omega)
  obtain ⟨y, hy⟩ := hget (n / 2) (by omega)
  obtain ⟨z, hz⟩ := hget (n - 1) (by omega)
  obtain ⟨arr₁, x₁, y₁, h₁, hperm₁, hx₁, hy₁, hle₁, -, hother₁⟩ := orderCells_spec hcmp hx hy
  obtain ⟨arr₂, x₂, z₂, h₂, hperm₂, hx₂, hz₂, hle₂, hcases₂, hother₂⟩ :=
    orderCells_spec hcmp hx₁ ((hother₁ (n - 1) (by omega) (by omega)).trans hz)
  have hy₂ := (hother₂ (n / 2) (by omega) (by omega)).trans hy₁
  obtain ⟨arr₃, y₃, z₃, h₃, hperm₃, hy₃, hz₃, hle₃, hcases₃, hother₃⟩ := orderCells_spec hcmp hy₂ hz₂
  have hx₃ := (hother₃ 0 (by omega) (by omega)).trans hx₂
  -- the first cell is the least of the three
  have hfirst : cmp x₂ y₁ ≤ 0 := by
    rcases hcases₂ with ⟨rfl, -⟩ | ⟨rfl, rfl⟩
    · exact hle₁
    · exact hcmp.trans hle₂ hle₁
  have hmid : cmp x₂ y₃ ≤ 0 := by
    rcases hcases₃ with ⟨rfl, -⟩ | ⟨rfl, -⟩
    · exact hfirst
    · exact hle₂
  have hlen₃ : arr₃.length = n := by rw [hperm₃.length_eq, hperm₂.length_eq, hperm₁.length_eq, hlen]
  obtain ⟨arr₄, h₄, hperm₄, -, hp₄, hother₄⟩ :=
    @swapCells_spec α arr₃ (n / 2) (n - 2) (by omega) (by omega)
  refine ⟨arr₄, x₂, y₃, z₃, ?_, hperm₄.trans (hperm₃.trans (hperm₂.trans hperm₁)), ?_, hp₄.trans hy₃, ?_, hmid, hle₃⟩
  · unfold medianOfThree
    simp only [hlen, h₁, h₂, h₃, Option.bind_eq_bind, Option.bind_some]
    exact h₄
  · exact (hother₄ 0 (by omega) (by omega)).trans hx₃
  · exact (hother₄ (n - 1) (by omega) (by omega)).trans hz₃

/-- The scan from the left stops at the latest where a cell is not below the pivot. -/
theorem scanUp_spec {arr : List α} {pivot z : α} {m : Nat} (hz : arr[m]? = some z) (hstop : ¬ cmp z pivot < 0) :
    ∀ (fuel : Nat) {i : Nat}, i < m → m - i ≤ fuel → ∃ k x, scanUp cmp arr pivot fuel i = some k ∧ i < k ∧ k ≤ m ∧
      arr[k]? = some x ∧ ¬ cmp x pivot < 0 ∧ ∀ l, i < l → l < k → ∀ x ∈ arr[l]?, cmp x pivot < 0
  | 0, i, him, hfuel => by omega
  | fuel + 1, i, him, hfuel => by
    have hlen := (List.getElem?_eq_some_iff.1 hz).1
    have hget : arr[i + 1]? = some arr[i + 1] := List.getElem?_eq_getElem (by omega)
    rw [scanUp, hget, Option.bind_eq_bind, Option.bind_some]
    by_cases hlt : cmp arr[i + 1] pivot < 0
    · have hne : i + 1 ≠ m := by
        rintro rfl
        rw [hget, Option.some.injEq] at hz
        exact hstop (hz ▸ hlt)
      obtain ⟨k, x, hscan, hik, hkm, hx, hnot, hbelow⟩ := scanUp_spec hz hstop fuel (show i + 1 < m by omega) (by omega)
      refine ⟨k, x, by rw [if_pos hlt, hscan], by omega, hkm, hx, hnot, fun l hl hlk y hy => ?_⟩
      by_cases hl1 : l = i + 1
      · rw [hl1, hget, Option.mem_some_iff] at hy
        rwa [← hy]
      · exact hbelow l (by omega) hlk y hy
    · exact ⟨i + 1, _, by rw [if_neg hlt]; rfl, by omega, by omega, hget, hlt, fun l hl hl' => by omega⟩

/-- The scan from the right stops at the latest where a cell is not above the pivot. -/
theorem scanDown_spec {arr : List α} {pivot z : α} {m : Nat} (hz : arr[m]? = some z) (hstop : ¬ 0 < cmp z pivot) :
    ∀ {j : Nat}, m < j → j ≤ arr.length → ∃ k x, scanDown cmp arr pivot j = some k ∧ m ≤ k ∧ k < j ∧
      arr[k]? = some x ∧ ¬ 0 < cmp x pivot ∧ ∀ l, k < l → l < j → ∀ x ∈ arr[l]?, 0 < cmp x pivot
  | 0, hmj, _ => by omega
  | j + 1, hmj, hlen => by
    have hget : arr[j]? = some arr[j] := List.getElem?_eq_getElem (by omega)
    rw [scanDown, hget, Option.bind_eq_bind, Option.bind_some]
    by_cases hgt : 0 < cmp arr[j] pivot
    · have hne : j ≠ m := by
        rintro rfl
        rw [hget, Option.some.injEq] at hz
        exact hstop (hz ▸ hgt)
      obtain ⟨k, x, hscan, hmk, hkj, hx, hnot, habove⟩ := scanDown_spec hz hstop (show m < j by omega) (by omega)
      refine ⟨k, x, by rw [if_pos hgt, hscan], hmk, by omega, hx, hnot, fun l hl hlj y hy => ?_⟩
      by_cases hl1 : l = j
      · rw [hl1, hget, Option.mem_some_iff] at hy
        rwa [← hy]
      · exact habove l hl (by omega) y hy
    · exact ⟨j, _, by rw [if_neg hgt]; rfl, by omega, by omega, hget, hgt, fun l hl hl' => by omega⟩

/-- The invariant of the partition loop: the cells up to `i` are not above the pivot, the ones from `j`
on are not below it, and the pivot waits before the last cell. -/
structure Split (cmp : α → α → Int) (pivot : α) (arr : List α) (i j : Nat) : Prop where
  lt : i < j
  le : j + 2 ≤ arr.length
  low : ∀ k ≤ i, ∀ x ∈ arr[k]?, cmp x pivot ≤ 0
  high : ∀ k, j ≤ k → ∀ x ∈ arr[k]?, cmp pivot x ≤ 0
  waits : arr[arr.length - 2]? = some pivot

/-- What the partition leaves: the pivot's place `i`, lower cells before it and higher ones from it on. -/
structure Parted (cmp : α → α → Int) (pivot : α) (arr : List α) (i : Nat) : Prop where
  pos : 0 < i
  le : i + 2 ≤ arr.length
  low : ∀ k < i, ∀ x ∈ arr[k]?, cmp x pivot ≤ 0
  high : ∀ k, i ≤ k → ∀ x ∈ arr[k]?, cmp pivot x ≤ 0
  waits : arr[arr.length - 2]? = some pivot

theorem partitionLoop_spec (hcmp : Comparator cmp) {pivot : α} : ∀ (fuel : Nat) {i j : Nat} {arr : List α},
    Split cmp pivot arr i j → j - i ≤ fuel →
    ∃ out k, partitionLoop cmp pivot fuel arr i j = some (out, k) ∧ out.Perm arr ∧ Parted cmp pivot out k
  | 0, i, j, arr, h, hfuel => by
    have := h.lt
    omega
  | fuel + 1, i, j, arr, h, hfuel => by
    have hlt := h.lt
    have hle := h.le
    have hi : arr[i]? = some arr[i] := List.getElem?_eq_getElem (by omega)
    have hj : arr[j]? = some arr[j] := List.getElem?_eq_getElem (by omega)
    obtain ⟨i', x, hup, hii', hi'j, hx, hxge, hbelow⟩ := @scanUp_spec α cmp arr pivot _ _ hj
      (fun hneg => Int.not_lt.2 (h.high j (Nat.le_refl j) _ hj) ((hcmp.flip pivot arr[j]).2 hneg)) arr.length i hlt (by omega)
    obtain ⟨j', y, hdown, hij', hj'j, hy, hyle, habove⟩ := @scanDown_spec α cmp arr pivot _ _ hi
      (Int.not_lt.2 (h.low i (Nat.le_refl i) _ hi)) j hlt (by omega)
    -- the scans extend the two sorted-out parts up to the cells where they stop
    have hlow : ∀ k < i', ∀ x ∈ arr[k]?, cmp x pivot ≤ 0 := by
      intro k hk x hx
      by_cases hki : k ≤ i
      · exact h.low k hki x hx
      · exact (hbelow k (by omega) hk x hx).le
    have hhigh : ∀ k, j' < k → ∀ x ∈ arr[k]?, cmp pivot x ≤ 0 := by
      intro k hk x hx
      by_cases hkj : j ≤ k
      · exact h.high k hkj x hx
      · exact hcmp.le_of_pos (habove k hk (by omega) x hx)
    rw [partitionLoop, hup, Option.bind_eq_bind, Option.bind_some, hdown, Option.bind_eq_bind, Option.bind_some]
    by_cases hcross : j' ≤ i'
    · refine ⟨arr, i', by rw [if_pos hcross]; rfl, .refl _, ⟨by omega, by omega, hlow, fun k hk z hz => ?_, h.waits⟩⟩
      by_cases hki : k = i'
      · rw [hki, hx, Option.mem_some_iff] at hz
        exact hz ▸ hcmp.ge_of_not_neg hxge
      · exact hhigh k (by omega) z hz
    · -- each of the two cells belongs to the other part, so after the swap both parts are longer
      obtain ⟨arr', hswap, hperm, houti, houtj, hother⟩ := @swapCells_spec α arr i' j' (by omega) (by omega)
      have hlen := hperm.length_eq
      have hsplit : Split cmp pivot arr' i' j' := by
        refine ⟨by omega, by omega, fun k hk z hz => ?_, fun k hk z hz => ?_, ?_⟩
        · by_cases hki : k = i'
          · rw [hki, houti, hy, Option.mem_some_iff] at hz
            exact hz ▸ Int.not_lt.1 hyle
          · exact hlow k (by omega) z (hother k hki (by omega) ▸ hz)
        · by_cases hkj : k = j'
          · rw [hkj, houtj, hx, Option.mem_some_iff] at hz
            exact hz ▸ hcmp.ge_of_not_neg hxge
          · exact hhigh k (by omega) z (hother k (by omega) hkj ▸ hz)
        · rw [hlen, hother _ (by omega) (by omega)]
          exact h.waits
      obtain ⟨out, k, hout, hpermOut, hparted⟩ := partitionLoop_spec hcmp fuel hsplit (by omega)
      refine ⟨out, k, ?_, hpermOut.trans hperm, hparted⟩
      rw [if_neg hcross, hswap, Option.bind_some, hout]

/-- Two sorted halves around the pivot. -/
theorem sortedBy_middle (hcmp : Comparator cmp) {left right : List α} {pivot : α} (hl : SortedBy cmp left)
    (hr : SortedBy cmp right) (hlow : ∀ x ∈ left, cmp x pivot ≤ 0) (hhigh : ∀ x ∈ right, cmp pivot x ≤ 0) :
    SortedBy cmp (left ++ pivot :: right) := by
  refine List.pairwise_append.2 ⟨hl, List.pairwise_cons.2 ⟨hhigh, hr⟩, fun x hx z hz => ?_⟩
  rcases List.mem_cons.1 hz with rfl | hz
  · exact hlow x hx
  · exact hcmp.trans (hlow x hx) (hhigh z hz)

theorem mem_take_index {l : List α} {i : Nat} {x : α} (h : x ∈ l.take i) : ∃ k < i, x ∈ l[k]? := by
  obtain ⟨k, hk⟩ := List.mem_iff_getElem?.1 h
  rw [List.getElem?_take] at hk
  split at hk
  · next hlt => exact ⟨k, hlt, hk⟩
  · cases hk

theorem mem_drop_index {l : List α} {i : Nat} {x : α} (h : x ∈ l.drop i) : ∃ k, i ≤ k ∧ x ∈ l[k]? := by
  obtain ⟨k, hk⟩ := List.mem_iff_getElem?.1 h
  rw [List.getElem?_drop] at hk
  exact ⟨i + k, by omega, hk⟩

/-- The quicksort ends, stays inside the array and sorts. -/
theorem vocabQuicksort_spec (hcmp : Comparator cmp) : ∀ (fuel : Nat) (arr : List α), arr.length < fuel →
    ∃ out, vocabQuicksort cmp fuel arr = some out ∧ out.Perm arr ∧ SortedBy cmp out
  | 0, arr, hfuel => by omega
  | fuel + 1, arr, hfuel => by
    unfold vocabQuicksort
    by_cases hn : 16 < arr.length
    · obtain ⟨arr₁, lo, p, hi, h₁, hperm₁, hlo, hp, hhi, hlop, hphi⟩ := medianOfThree_spec hcmp hn
      have hlen₁ := hperm₁.length_eq
      -- the pivot waits in the last cell but one, the greatest of the three is behind it
      have hsplit : Split cmp p arr₁ 0 (arr.length - 2) := by
        refine ⟨by omega, by omega, fun k hk x hx => ?_, fun k hk x hx => ?_, hlen₁ ▸ hp⟩
        · rw [Nat.le_zero.1 hk, hlo, Option.mem_some_iff] at hx
          exact hx ▸ hlop
        · have hkn : k < arr₁.length := (List.getElem?_eq_some_iff.1 hx).1
          have hcase : k = arr.length - 2 ∨ k = arr.length - 1 := by omega
          rcases hcase with rfl | rfl
          · rw [hp, Option.mem_some_iff] at hx
            exact hx ▸ hcmp.le_refl p
          · rw [hhi, Option.mem_some_iff] at hx
            exact hx ▸ hphi
      obtain ⟨arr₂, i, h₂, hperm₂, hparted⟩ := partitionLoop_spec hcmp arr.length hsplit (by omega)
      have hlen₂ := hperm₂.length_eq
      have hile := hparted.le
      have hipos := hparted.pos
      obtain ⟨arr₃, h₃, hperm₃, hmid, hback, hother⟩ := @swapCells_spec α arr₂ i (arr.length - 2) (by omega) (by omega)
      have hlen₃ := hperm₃.length_eq
      -- the swap puts the pivot between the parts
      have hpivot : arr₃[i]? = some p := by
        rw [hmid, ← hparted.waits, hlen₂, hlen₁]
      have hlow : ∀ x ∈ arr₃.take i, cmp x p ≤ 0 := by
        intro x hx
        obtain ⟨k, hk, hxk⟩ := mem_take_index hx
        exact hparted.low k hk x (hother k (by omega) (by omega) ▸ hxk)
      have hhigh : ∀ x ∈ arr₃.drop (i + 1), cmp p x ≤ 0 := by
        intro x hx
        obtain ⟨k, hk, hxk⟩ := mem_drop_index hx
        by_cases hkb : k = arr.length - 2
        · rw [hkb, hback] at hxk
          exact hparted.high i (Nat.le_refl i) x hxk
        · exact hparted.high k (by omega) x (hother k (by omega) hkb ▸ hxk)
      obtain ⟨left, hleft, hpermL, hsortL⟩ := vocabQuicksort_spec hcmp fuel (arr₃.take i)
        (by rw [List.length_take]; omega)
      obtain ⟨right, hright, hpermR, hsortR⟩ := vocabQuicksort_spec hcmp fuel (arr₃.drop (i + 1))
        (by rw [List.length_drop]; omega)
      refine ⟨left ++ p :: right, ?_, ?_, ?_⟩
      · simp only [if_pos hn, h₁, hp, h₂, h₃, hpivot, hleft, hright, Option.bind_eq_bind, Option.bind_some, ite_self]
        rfl
      · have hsplit₃ : arr₃ = arr₃.take i ++ p :: arr₃.drop (i + 1) := by
          obtain ⟨hi3, rfl⟩ := List.getElem?_eq_some_iff.1 hpivot
          rw [List.getElem_cons_drop, List.take_append_drop]
        have hperm : (left ++ p :: right).Perm arr₃ := by
          rw [hsplit₃]
          exact hpermL.append (hpermR.cons p)
        exact hperm.trans (hperm₃.trans (hperm₂.trans hperm₁))
      · exact sortedBy_middle hcmp hsortL hsortR (fun x hx => hlow x (hpermL.mem_iff.1 hx))
          fun x hx => hhigh x (hpermR.mem_iff.1 hx)
    · rw [if_neg hn]
      exact vocabInsertionSort_spec hcmp arr

end SortSpec

/-! ## The index -/

/-- `strcmp(vocab[a], vocab[b])`. -/
def vocabCmp (vocab : List (List UInt8)) (a b : Nat) : Int := strcmp (vocab.getD a []) (vocab.getD b [])

theorem strcmp_comparator : Comparator strcmp :=
  ⟨fun a b => by rw [strcmp_neg a b]; omega, strcmp_trans⟩

theorem vocabCmp_comparator (vocab : List (List UInt8)) : Comparator (vocabCmp vocab) :=
  strcmp_comparator.comap fun a => vocab.getD a []

/-- The positions of the first `n` strings of a vocabulary, in the order of the strings. -/
structure VocabIndex (vocab : List (List UInt8)) (n : Nat) where
  indices : List Nat
  perm : indices.Perm (List.range n)
  sorted : SortedBy (vocabCmp vocab) indices

/-- `build_sorted_index`, `build_sorted` of the GGUF loader. -/
def buildSortedIndex (vocab : List (List UInt8)) (n : Nat) : Option (List Nat) :=
  vocabQuicksort (vocabCmp vocab) (n + 1) (List.range n)

theorem buildSortedIndex_spec (vocab : List (List UInt8)) (n : Nat) :
    ∃ out, buildSortedIndex vocab n = some out ∧ out.Perm (List.range n) ∧ SortedBy (vocabCmp vocab) out :=
  vocabQuicksort_spec (vocabCmp_comparator vocab) (n + 1) (List.range n) (by rw [List.length_range]; omega)

def VocabIndex.build (vocab : List (List UInt8)) (n : Nat) : VocabIndex vocab n :=
  match h : buildSortedIndex vocab n with
  | some out =>
    have hspec : out.Perm (List.range n) ∧ SortedBy (vocabCmp vocab) out := by
      obtain ⟨out', hout, hperm, hsorted⟩ := buildSortedIndex_spec vocab n
      cases h.symm.trans hout
      exact ⟨hperm, hsorted⟩
    ⟨out, hspec.1, hspec.2⟩
  | none => False.elim (by
      obtain ⟨out, hout, -⟩ := buildSortedIndex_spec vocab n
      cases h.symm.trans hout)

theorem VocabIndex.length_indices {vocab : List (List UInt8)} {n : Nat} (ix : VocabIndex vocab n) :
    ix.indices.length = n := by rw [ix.perm.length_eq, List.length_range]

/-! ## The search -/

/-- The loop of a binary search, with `hi` one past the source's `hi`. -/
def searchLoop (cmpAt : Nat → Int) : Nat → Nat → Nat → Option Nat
  | 0, _, _ => none
  | fuel + 1, lo, hi =>
    if lo < hi then
      let mid := lo + (hi - 1 - lo) / 2
      if cmpAt mid = 0 then some mid
      else if cmpAt mid < 0 then searchLoop cmpAt fuel lo mid
      else searchLoop cmpAt fuel (mid + 1) hi
    else none

theorem searchLoop_some {cmpAt : Nat → Int} : ∀ {fuel lo hi mid : Nat}, searchLoop cmpAt fuel lo hi = some mid →
    mid < hi ∧ cmpAt mid = 0
  | fuel + 1, lo, hi, mid, h => by
    rw [searchLoop] at h
    split at h
    · dsimp only at h
      split at h
      · next hlt heq =>
        cases h
        exact ⟨by omega, heq⟩
      · split at h
        · obtain ⟨hmid, heq⟩ := searchLoop_some h
          exact ⟨by omega, heq⟩
        · exact searchLoop_some h
    · cases h

/-- Where the comparison falls along the range, the search misses nothing. -/
theorem searchLoop_none {cmpAt : Nat → Int} {n : Nat}
    (hmono : ∀ i j, i ≤ j → j < n → cmpAt i ≤ 0 → cmpAt j ≤ 0 ∧ (cmpAt i < 0 → cmpAt j < 0)) :
    ∀ {fuel lo hi : Nat}, hi ≤ n → hi - lo ≤ fuel → searchLoop cmpAt fuel lo hi = none →
      ∀ k, lo ≤ k → k < hi → cmpAt k ≠ 0
  | 0, lo, hi, _, hfuel, _, k, hlo, hhi => by omega
  | fuel + 1, lo, hi, hn, hfuel, h, k, hlo, hhi => by
    rw [searchLoop, if_pos (by omega)] at h
    dsimp only at h
    split at h
    · cases h
    · next hne =>
      split at h
      · next hneg =>
        by_cases hk : k < lo + (hi - 1 - lo) / 2
        · exact searchLoop_none hmono (by omega) (by omega) h k hlo hk
        · exact ((hmono _ k (by omega) (by omega) hneg.le).2 hneg).ne
      · next hneg =>
        by_cases hk : k ≤ lo + (hi - 1 - lo) / 2
        · intro h0
          have := (hmono k _ hk (by omega) h0.le).1
          omega
        · exact searchLoop_none hmono hn (by omega) h k (by omega) hhi

section Lookup

variable {vocab : List (List UInt8)} {n : Nat} (ix : VocabIndex vocab n)

/-- `tokenizer_lookup`. -/
def VocabIndex.lookup (str : List UInt8) : Option Nat :=
  (searchLoop (fun mid => strcmp str (vocab.getD (ix.indices.getD mid 0) [])) n 0 n).map fun mid => ix.indices.getD mid 0

/-- `tokenizer_find_id`, which compares the other way round. -/
def VocabIndex.findId (str : List UInt8) : Option Nat :=
  (searchLoop (fun mid => -strcmp (vocab.getD (ix.indices.getD mid 0) []) str) n 0 n).map fun mid => ix.indices.getD mid 0

theorem VocabIndex.findId_eq_lookup (str : List UInt8) : ix.findId str = ix.lookup str := by
  unfold VocabIndex.findId VocabIndex.lookup
  simp only [strcmp_neg str, Int.neg_neg]

theorem VocabIndex.getD_lt {mid : Nat} (h : mid < n) : ix.indices.getD mid 0 < n := by
  have hlen := ix.length_indices
  rw [List.getD_eq_getElem?_getD, List.getElem?_eq_getElem (by omega), Option.getD_some]
  exact List.mem_range.1 (ix.perm.mem_iff.1 (List.getElem_mem _))

theorem VocabIndex.le_of_le {i j : Nat} (hij : i ≤ j) (hj : j < n) :
    vocabCmp vocab (ix.indices.getD i 0) (ix.indices.getD j 0) ≤ 0 := by
  have hlen := ix.length_indices
  rw [List.getD_eq_getElem?_getD, List.getD_eq_getElem?_getD, List.getElem?_eq_getElem (by omega),
    List.getElem?_eq_getElem (by omega), Option.getD_some, Option.getD_some]
  rcases Nat.lt_or_eq_of_le hij with hlt | rfl
  · exact List.pairwise_iff_getElem.1 ix.sorted i j _ _ hlt
  · exact (vocabCmp_comparator vocab).le_refl _

/-- What the search finds is a position of the string. -/
theorem VocabIndex.lookup_some {str : List UInt8} {id : Nat} (h : ix.lookup str = some id) :
    id < n ∧ vocab.getD id [] = str := by
  obtain ⟨mid, hmid, rfl⟩ := Option.map_eq_some_iff.1 h
  obtain ⟨hlt, heq⟩ := searchLoop_some hmid
  exact ⟨ix.getD_lt hlt, (strcmp_eq_zero.1 heq).symm⟩

/-- A string of the vocabulary is found. -/
theorem VocabIndex.lookup_none {str : List UInt8} (h : ix.lookup str = none) {id : Nat} (hid : id < n) :
    vocab.getD id [] ≠ str := by
  intro hstr
  have hnone := Option.map_eq_none_iff.1 h
  obtain ⟨k, hk⟩ := List.mem_iff_getElem?.1 (ix.perm.mem_iff.2 (List.mem_range.2 hid))
  have hkn : k < n := ix.length_indices ▸ (List.getElem?_eq_some_iff.1 hk).1
  have hkid : ix.indices.getD k 0 = id := by rw [List.getD_eq_getElem?_getD, hk, Option.getD_some]
  refine searchLoop_none (fun i j hij hj hi => ?_) (Nat.le_refl n) (by omega) hnone k (Nat.zero_le k) hkn ?_
  · have hle : strcmp (vocab.getD (ix.indices.getD i 0) []) (vocab.getD (ix.indices.getD j 0) []) ≤ 0 := ix.le_of_le hij hj
    refine ⟨strcmp_trans hi hle, fun hneg => ?_⟩
    by_contra hc
    have hback := strcmp_comparator.ge_of_not_neg hc
    have := strcmp_comparator.trans hle hback
    have := (strcmp_comparator.flip (vocab.getD (ix.indices.getD i 0) []) str).2 hneg
    omega
  · exact strcmp_eq_zero.2 (by rw [hkid, hstr])

end Lookup

end BitForge.Tokenizer
