/-
Arrays as they are written: a list of stores, of which the last at an address counts, and rows that are covered piece by
piece.
-/
import Mathlib.Data.List.Basic
import Mathlib.Tactic

namespace BitForge.Lib.Writes

variable {α β : Type}

/-- The contents of an address after the stores; `none` where nothing has been stored. -/
def stored : List (Nat × α) → Nat → Option α
  | [], _ => none
  | (a, v) :: ws, x => (stored ws x).or (if x = a then some v else none)

theorem stored_eq_none {a : Nat} : ∀ {ws : List (Nat × α)}, (∀ v, (a, v) ∉ ws) → stored ws a = none
  | [], _ => rfl
  | (b, u) :: ws, hno => by
    have hne : a ≠ b := by
      rintro rfl
      exact hno u List.mem_cons_self
    unfold stored
    rw [stored_eq_none fun v hv => hno v (List.mem_cons_of_mem _ hv), if_neg hne]
    rfl

/-- Where all stores at an address agree, it holds their value. -/
theorem stored_eq_of_mem {a : Nat} {v : α} : ∀ {ws : List (Nat × α)}, (a, v) ∈ ws → (∀ v', (a, v') ∈ ws → v' = v) →
    stored ws a = some v
  | [], h, _ => absurd h List.not_mem_nil
  | (b, u) :: ws, h, huniq => by
    unfold stored
    by_cases hrest : ∃ v', (a, v') ∈ ws
    · obtain ⟨v', hv'⟩ := hrest
      obtain rfl := huniq v' (List.mem_cons_of_mem _ hv')
      rw [stored_eq_of_mem hv' fun u hu => huniq u (List.mem_cons_of_mem _ hu)]
      rfl
    · rcases List.mem_cons.1 h with h | h
      · cases h
        rw [stored_eq_none fun v' hv' => hrest ⟨v', hv'⟩, if_pos rfl]
        rfl
      · exact absurd ⟨v, h⟩ hrest

theorem stored_append : ∀ (ws vs : List (Nat × α)) (x : Nat), stored (ws ++ vs) x = (stored vs x).or (stored ws x)
  | [], vs, x => by simp [stored]
  | (a, v) :: ws, vs, x => by
    rw [List.cons_append, stored, stored_append ws vs x, stored, Option.or_assoc]

/-- The values at the address `dst` and those behind it. -/
def storesAt : Nat → List α → List (Nat × α)
  | _, [] => []
  | dst, v :: vs => (dst, v) :: storesAt (dst + 1) vs

theorem mem_storesAt : ∀ {vs : List α} {dst a : Nat} {v : α}, (a, v) ∈ storesAt dst vs → dst ≤ a ∧ a < dst + vs.length
  | [], _, _, _, h => absurd h List.not_mem_nil
  | _ :: vs, dst, a, v, h => by
    rw [List.length_cons]
    rcases List.mem_cons.1 h with h | h
    · cases h
      omega
    · have := mem_storesAt h
      omega

theorem stored_storesAt : ∀ (vs : List α) (dst i : Nat), stored (storesAt dst vs) (dst + i) = vs[i]?
  | [], _, _ => rfl
  | v :: vs, dst, 0 => by
    rw [storesAt, stored, stored_eq_none fun u hu => by have := (mem_storesAt hu).1; omega]
    simp
  | v :: vs, dst, i + 1 => by
    have hnext := stored_storesAt vs (dst + 1) i
    rw [show dst + 1 + i = dst + (i + 1) by omega] at hnext
    rw [storesAt, stored, hnext, if_neg (by omega)]
    simp

/-- One store to each address below `n`. -/
theorem stored_map_range (f : Nat → α) (n a : Nat) :
    stored ((List.range n).map fun i => (i, f i)) a = if a < n then some (f a) else none := by
  split
  · next ha =>
    refine stored_eq_of_mem (List.mem_map.2 ⟨a, List.mem_range.2 ha, rfl⟩) fun v hv => ?_
    obtain ⟨i, -, heq⟩ := List.mem_map.1 hv
    cases heq
    rfl
  · next ha =>
    refine stored_eq_none fun v hv => ha ?_
    obtain ⟨i, hi, heq⟩ := List.mem_map.1 hv
    cases heq
    exact List.mem_range.1 hi

/-- Rows of `n` values each, one behind the other. -/
theorem stored_rows {rows n : Nat} (g : Nat → Nat → α) {i t : Nat} (hi : i < rows) (ht : t < n) :
    stored ((List.range rows).flatMap fun i => (List.range n).map fun t => (i * n + t, g i t)) (i * n + t) = some (g i t) := by
  apply stored_eq_of_mem
  · exact List.mem_flatMap.2 ⟨i, List.mem_range.2 hi, List.mem_map.2 ⟨t, List.mem_range.2 ht, rfl⟩⟩
  · intro v hv
    obtain ⟨i', -, hrow⟩ := List.mem_flatMap.1 hv
    obtain ⟨t', ht', heq⟩ := List.mem_map.1 hrow
    rw [List.mem_range] at ht'
    rw [Prod.mk.injEq] at heq
    obtain ⟨haddr, rfl⟩ := heq
    have hpos : 0 < n := by omega
    have hrow' : i' = i := by
      have hdiv := congrArg (· / n) haddr
      simpa [Nat.mul_comm _ n, Nat.mul_add_div hpos, Nat.div_eq_of_lt ht, Nat.div_eq_of_lt ht'] using hdiv
    subst hrow'
    rw [Nat.add_left_cancel haddr]

/-! ## Rows in pieces -/

/-- Pieces of `w` elements and the elements behind them are the whole row. -/
theorem pieces_append (f : Nat → β) (w : Nat) {c n : Nat} (hc : w * c ≤ n) :
    (List.range c).flatMap (fun p => (List.range w).map fun l => f (w * p + l)) ++
      (List.range (n - w * c)).map (fun l => f (w * c + l)) = (List.range n).map f := by
  have hpieces : ∀ c, (List.range c).flatMap (fun p => (List.range w).map fun l => f (w * p + l)) =
      (List.range (w * c)).map f := by
    intro c
    induction c with
    | zero => simp
    | succ c ih =>
      rw [List.range_succ, List.flatMap_append, ih, Nat.mul_succ, List.range_add, List.map_append]
      simp
  have hsplit : n = w * c + (n - w * c) := by omega
  conv_rhs => rw [hsplit, List.range_add, List.map_append, List.map_map]
  rw [hpieces]
  rfl

/-- Two nested loops are one. -/
theorem rows_flatMap (f : Nat → Nat → β) (a : Nat) {b : Nat} (hb : 0 < b) :
    (List.range a).flatMap (fun i => (List.range b).map fun j => f i j) = (List.range (b * a)).map fun k => f (k / b) (k % b) := by
  have hpieces := pieces_append (fun k => f (k / b) (k % b)) b (le_refl (b * a))
  rw [Nat.sub_self, List.range_zero, List.map_nil, List.append_nil] at hpieces
  rw [← hpieces]
  refine List.flatMap_congr fun i _ => List.map_congr_left fun j hj => ?_
  have hlt := List.mem_range.1 hj
  rw [Nat.mul_add_div hb, Nat.div_eq_of_lt hlt, Nat.add_zero, Nat.mul_add_mod, Nat.mod_eq_of_lt hlt]

/-- What holds in all pieces, lane by lane, and behind them, holds in the row. -/
theorem forall_pieces {P : Nat → Prop} {w : Nat} (hw : 0 < w) (n : Nat) :
    ((∀ l < w, ∀ p < n / w, P (w * p + l)) ∧ ∀ t < n - w * (n / w), P (w * (n / w) + t)) ↔ ∀ i < n, P i := by
  have hdiv := Nat.div_add_mod n w
  constructor
  · rintro ⟨hpieces, htail⟩ i hi
    rcases Nat.lt_or_ge i (w * (n / w)) with hlt | hge
    · have hp : i / w < n / w := Nat.div_lt_of_lt_mul hlt
      have hpiece := hpieces (i % w) (Nat.mod_lt i hw) (i / w) hp
      rwa [Nat.div_add_mod] at hpiece
    · have hrest := htail (i - w * (n / w)) (by omega)
      rwa [Nat.add_sub_cancel' hge] at hrest
  · intro h
    refine ⟨fun l hl p hp => h _ ?_, fun t ht => h _ (by omega)⟩
    have hmul : w * (p + 1) ≤ w * (n / w) := Nat.mul_le_mul_left w hp
    rw [Nat.mul_succ] at hmul
    omega

/-- Blocks of `w` elements, of which the last may be shorter. -/
theorem blocks_flatMap (f : Nat → β) {w : Nat} (hw : 0 < w) (n : Nat) :
    (List.range ((n + w - 1) / w)).flatMap (fun b => (List.range (min w (n - w * b))).map fun k => f (w * b + k)) =
      (List.range n).map f := by
  have hdiv := Nat.div_add_mod n w
  have hmod := Nat.mod_lt n hw
  have hfull : (List.range (n / w)).flatMap (fun b => (List.range (min w (n - w * b))).map fun k => f (w * b + k)) =
      (List.range (n / w)).flatMap fun b => (List.range w).map fun k => f (w * b + k) := by
    refine List.flatMap_congr fun b hb => ?_
    have hlt := List.mem_range.1 hb
    have hmul : w * (b + 1) ≤ w * (n / w) := Nat.mul_le_mul_left w hlt
    rw [Nat.mul_succ] at hmul
    rw [min_eq_left (by omega)]
  have hpieces := pieces_append f w (c := n / w) (n := n) (by omega)
  by_cases hzero : n % w = 0
  · have hcount : (n + w - 1) / w = n / w := by
      have heq : n + w - 1 = w * (n / w) + (w - 1) := by omega
      have hzero' : (w - 1) / w = 0 := Nat.div_eq_of_lt (by omega)
      rw [heq, Nat.mul_add_div hw, hzero', Nat.add_zero]
    have hnone : n - w * (n / w) = 0 := by omega
    rw [hcount, hfull, ← hpieces, hnone]
    simp
  · have hcount : (n + w - 1) / w = n / w + 1 := by
      have heq : n + w - 1 = w * (n / w + 1) + (n % w - 1) := by
        rw [Nat.mul_add_one]
        omega
      have hzero' : (n % w - 1) / w = 0 := Nat.div_eq_of_lt (by omega)
      rw [heq, Nat.mul_add_div hw, hzero', Nat.add_zero]
    have hlast : min w (n - w * (n / w)) = n - w * (n / w) := min_eq_right (by omega)
    rw [hcount, List.range_succ, List.flatMap_append, hfull, ← hpieces]
    simp only [List.flatMap_cons, List.flatMap_nil, List.append_nil, hlast]

end BitForge.Lib.Writes
