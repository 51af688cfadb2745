/-
Flat memories made of named arrays, and block copies into them: a region is `len` consecutive
cells of one array, `copy` is `memcpy` into a region, `slice` reads a region back. Copies into
disjoint regions do not disturb each other, so the contents of a region are those of the last
copy into it.
-/
import Mathlib.Data.List.Basic
import Mathlib.Tactic

namespace BitForge.Lib

/-- `len` consecutive cells of the array `arr`, from the offset `off` on. -/
structure Region (K : Type) where
  arr : K
  off : Int
  len : Nat
deriving DecidableEq, Repr

/-- A memory: the cells of each array, at every offset. -/
abbrev Mem (K F : Type) := K → Int → F

namespace Region

variable {K F : Type}

/-- The cell `a` of the array `k` lies in the region. -/
def Has (r : Region K) (k : K) (a : Int) : Prop := k = r.arr ∧ r.off ≤ a ∧ a < r.off + r.len

instance [DecidableEq K] (r : Region K) (k : K) (a : Int) : Decidable (r.Has k a) := by
  unfold Has; infer_instance

/-- Two regions without a common cell. -/
def Disj (r r' : Region K) : Prop := ∀ k a, r.Has k a → ¬ r'.Has k a

theorem Disj.symm {r r' : Region K} (h : r.Disj r') : r'.Disj r := fun k a h1 h2 => h k a h2 h1

theorem disj_of_arr {r r' : Region K} (h : r.arr ≠ r'.arr) : r.Disj r' :=
  fun _ _ h1 h2 => h (h1.1.symm.trans h2.1)

end Region

namespace Mem

variable {K F : Type} [DecidableEq K]

/-- `memcpy` of the first `r.len` cells of `src` into the region. -/
def copy (m : Mem K F) (r : Region K) (src : Nat → F) : Mem K F := fun k a =>
  if r.Has k a then src (a - r.off).toNat else m k a

/-- The contents of a region. -/
def slice (m : Mem K F) (r : Region K) : List F := (List.range r.len).map fun j : Nat => m r.arr (r.off + (j : Int))

/-- Copies a list of buffers into a list of regions, the `i`-th buffer into the `i`-th region. -/
def copyAll (m : Mem K F) : List (Region K) → (Nat → Nat → F) → Mem K F
  | [], _ => m
  | r :: rs, src => copyAll (m.copy r (src 0)) rs fun i => src (i + 1)

/-- The contents of a list of regions. -/
def slices (m : Mem K F) (rs : List (Region K)) : List (List F) := rs.map m.slice

/-- The buffers `src`, cut to the lengths of the regions. -/
def buffers (rs : List (Region K)) (src : Nat → Nat → F) : List (List F) :=
  rs.mapIdx fun i r => (List.range r.len).map (src i)

theorem slice_copy_self (m : Mem K F) (r : Region K) (src : Nat → F) :
    (m.copy r src).slice r = (List.range r.len).map src := by
  unfold slice
  apply List.map_congr_left
  intro j hj
  have hlt : j < r.len := List.mem_range.1 hj
  have hin : r.Has r.arr (r.off + j) := ⟨rfl, by omega, by omega⟩
  have hj' : (r.off + j - r.off).toNat = j := by omega
  unfold copy
  rw [if_pos hin, hj']

theorem slice_copy_disj (m : Mem K F) {r r' : Region K} (h : r.Disj r') (src : Nat → F) :
    (m.copy r src).slice r' = m.slice r' := by
  unfold slice
  apply List.map_congr_left
  intro j hj
  have hlt : j < r'.len := List.mem_range.1 hj
  have hin : r'.Has r'.arr (r'.off + j) := ⟨rfl, by omega, by omega⟩
  unfold copy
  rw [if_neg (fun h' => h _ _ h' hin)]

theorem slice_copyAll_disj (r' : Region K) :
    ∀ (rs : List (Region K)) (m : Mem K F) (src : Nat → Nat → F), (∀ r ∈ rs, r.Disj r') →
      (m.copyAll rs src).slice r' = m.slice r'
  | [], _, _, _ => rfl
  | r :: rs, m, src, h => by
    unfold copyAll
    rw [slice_copyAll_disj r' rs _ _ fun x hx => h x (List.mem_cons_of_mem _ hx)]
    exact slice_copy_disj m (h r (List.mem_cons_self ..)) _

/-- Copies into regions disjoint from `rs'` leave the contents of `rs'`. -/
theorem slices_copyAll_disj (m : Mem K F) (rs rs' : List (Region K)) (src : Nat → Nat → F)
    (h : ∀ r ∈ rs, ∀ r' ∈ rs', r.Disj r') : (m.copyAll rs src).slices rs' = m.slices rs' := by
  unfold slices
  apply List.map_congr_left
  intro r' hr'
  exact slice_copyAll_disj r' rs m src fun r hr => h r hr r' hr'

/-- After copying into pairwise disjoint regions, each region holds its own buffer. -/
theorem slices_copyAll_self :
    ∀ (rs : List (Region K)) (m : Mem K F) (src : Nat → Nat → F), rs.Pairwise Region.Disj →
      (m.copyAll rs src).slices rs = buffers rs src
  | [], _, _, _ => rfl
  | r :: rs, m, src, h => by
    obtain ⟨h1, h2⟩ := List.pairwise_cons.1 h
    have hhead : ((m.copy r (src 0)).copyAll rs fun i => src (i + 1)).slice r = (List.range r.len).map (src 0) := by
      rw [slice_copyAll_disj r rs _ _ fun x hx => (h1 x hx).symm, slice_copy_self]
    have htail := slices_copyAll_self rs (m.copy r (src 0)) (fun i => src (i + 1)) h2
    unfold slices at htail ⊢
    unfold copyAll buffers
    rw [List.map_cons, List.mapIdx_cons, hhead, htail]
    rfl

/-- A cell that no region has is not written. -/
theorem copyAll_outside {k : K} {a : Int} :
    ∀ (rs : List (Region K)) (m : Mem K F) (src : Nat → Nat → F), (∀ r ∈ rs, ¬ r.Has k a) → m.copyAll rs src k a = m k a
  | [], _, _, _ => rfl
  | r :: rs, m, src, h => by
    unfold copyAll
    rw [copyAll_outside rs _ _ fun r' hr' => h r' (List.mem_cons_of_mem _ hr')]
    exact if_neg (h r List.mem_cons_self)

/-- Equal copies make two memories equal at the cells written, and keep them equal at the others. -/
theorem copyAll_congr {k : K} {a : Int} : ∀ (rs : List (Region K)) {m m' : Mem K F} (src : Nat → Nat → F),
    (m' k a = m k a ∨ ∃ r ∈ rs, r.Has k a) → m'.copyAll rs src k a = m.copyAll rs src k a
  | [], m, m', _, h => by
    rcases h with h | ⟨r, hr, -⟩
    · exact h
    · cases hr
  | r :: rs, m, m', src, h => by
    unfold copyAll
    apply copyAll_congr rs
    by_cases hr : r.Has k a
    · left
      unfold copy
      rw [if_pos hr, if_pos hr]
    · rcases h with h | ⟨r', hr', hhas⟩
      · left
        unfold copy
        rw [if_neg hr, if_neg hr]
        exact h
      · right
        rcases List.mem_cons.1 hr' with rfl | hr'
        · exact absurd hhas hr
        · exact ⟨r', hr', hhas⟩

/-- Two memories agree on the cells of a region. -/
def AgreeOn (m m' : Mem K F) (r : Region K) : Prop := ∀ k a, r.Has k a → m k a = m' k a

omit [DecidableEq K] in
theorem slice_congr {m m' : Mem K F} {r : Region K} (h : AgreeOn m m' r) : m.slice r = m'.slice r := by
  unfold slice
  apply List.map_congr_left
  intro j hj
  have hlt : j < r.len := List.mem_range.1 hj
  exact h _ _ ⟨rfl, by omega, by omega⟩

omit [DecidableEq K] in
theorem slices_congr {m m' : Mem K F} {rs : List (Region K)} (h : ∀ r ∈ rs, AgreeOn m m' r) :
    m.slices rs = m'.slices rs :=
  List.map_congr_left fun r hr => slice_congr (h r hr)

/-- Equal copies keep agreement, and make two memories agree on the copied region. -/
theorem AgreeOn.copy {m m' : Mem K F} {r : Region K} (w : Region K) (src : Nat → F)
    (h : AgreeOn m m' r ∨ r = w) : AgreeOn (m.copy w src) (m'.copy w src) r := by
  intro k a hr
  unfold Mem.copy
  split
  · rfl
  · rename_i hw
    rcases h with h | rfl
    · exact h k a hr
    · exact absurd hr hw

theorem AgreeOn.copyAll {r : Region K} :
    ∀ (ws : List (Region K)) {m m' : Mem K F} (src : Nat → Nat → F), (AgreeOn m m' r ∨ r ∈ ws) →
      AgreeOn (m.copyAll ws src) (m'.copyAll ws src) r
  | [], _, _, _, h => h.resolve_right (List.not_mem_nil)
  | w :: ws, m, m', src, h => by
    unfold Mem.copyAll
    apply AgreeOn.copyAll ws
    rcases h with h | h
    · exact .inl (AgreeOn.copy w _ (.inl h))
    · rcases List.mem_cons.1 h with rfl | h
      · exact .inl (AgreeOn.copy r _ (.inr rfl))
      · exact .inr h

end Mem

end BitForge.Lib
