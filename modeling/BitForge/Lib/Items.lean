/-
Items written one after the other and read back in the same order. Where the reader finds each item
at its own start and steps over exactly its bytes, a whole run finds every item where it was written.
-/
import Mathlib.Data.List.Basic
import Mathlib.Tactic

namespace BitForge.Lib

section

variable {K R S : Type}

/-- Reading items from an offset on. `read` gives what an item is found as, and the offset behind it. -/
def readItems (read : Nat → K → Option (R × Nat)) : Nat → List K → Option (List R × Nat)
  | p, [] => some ([], p)
  | p, k :: ks => do
    let (r, p) ← read p k
    let (rs, p) ← readItems read p ks
    some (r :: rs, p)

/-- What the items of a list are found as, when the first of them starts at the offset `p`. -/
def itemsAt (enc : K → List UInt8) (found : Nat → K → R) : Nat → List K → List R
  | _, [] => []
  | p, k :: ks => found p k :: itemsAt enc found (p + (enc k).length) ks

variable (enc : K → List UInt8) (found : Nat → K → R)

theorem itemsAt_append : ∀ (xs ys : List K) (p : Nat),
    itemsAt enc found p (xs ++ ys) = itemsAt enc found p xs ++ itemsAt enc found (p + (xs.flatMap enc).length) ys
  | [], _, _ => rfl
  | x :: xs, ys, p => by
    simp only [List.cons_append, itemsAt, itemsAt_append xs, List.flatMap_cons, List.length_append, Nat.add_assoc]

theorem itemsAt_map (g : R → S) : ∀ (ks : List K) (p : Nat),
    (itemsAt enc found p ks).map g = itemsAt enc (fun q k => g (found q k)) p ks
  | [], _ => rfl
  | k :: ks, p => by simp only [itemsAt, List.map_cons, itemsAt_map g ks]

/-- Shifting the first offset shifts them all. -/
theorem itemsAt_shift (d : Nat) : ∀ (ks : List K) (p : Nat),
    itemsAt enc found (p + d) ks = itemsAt enc (fun q k => found (q + d) k) p ks
  | [], _ => rfl
  | k :: ks, p => by
    rw [itemsAt, itemsAt, Nat.add_right_comm, itemsAt_shift d ks]

/-- Items that are a field of others. -/
theorem itemsAt_comp {L : Type} (g : L → K) : ∀ (ks : List L) (p : Nat),
    itemsAt (fun k => enc (g k)) (fun q k => found q (g k)) p ks = itemsAt enc found p (ks.map g)
  | [], _ => rfl
  | k :: ks, p => by simp only [itemsAt, List.map_cons, itemsAt_comp g ks]

theorem mem_itemsAt {r : R} : ∀ {ks : List K} {p : Nat}, r ∈ itemsAt enc found p ks →
    ∃ as k bs, ks = as ++ k :: bs ∧ r = found (p + (as.flatMap enc).length) k
  | [], _, h => absurd h List.not_mem_nil
  | k :: ks, p, h => by
    rcases List.mem_cons.1 h with rfl | h
    · exact ⟨[], k, ks, rfl, rfl⟩
    · obtain ⟨as, m, bs, rfl, rfl⟩ := mem_itemsAt h
      refine ⟨k :: as, m, bs, rfl, ?_⟩
      rw [List.flatMap_cons, List.length_append, Nat.add_assoc]

/-- Every item of the list is found. -/
theorem itemsAt_mem {k : K} : ∀ {ks : List K} {p : Nat}, k ∈ ks → ∃ q, found q k ∈ itemsAt enc found p ks
  | m :: ks, p, h => by
    rcases List.mem_cons.1 h with rfl | h
    · exact ⟨p, List.mem_cons_self ..⟩
    · obtain ⟨q, hq⟩ := @itemsAt_mem k ks (p + (enc m).length) h
      exact ⟨q, List.mem_cons_of_mem _ hq⟩

/-- The run lemma: `aligned` is what the start of every item has. -/
theorem readItems_written (aligned : Nat → Prop) (read : List UInt8 → Nat → K → Option (R × Nat)) : ∀ (ks : List K)
    (pre post : List UInt8), aligned pre.length → (∀ k ∈ ks, ∀ n, aligned n → aligned (n + (enc k).length)) →
      (∀ k ∈ ks, ∀ pre post, aligned pre.length →
        read (pre ++ enc k ++ post) pre.length k = some (found pre.length k, pre.length + (enc k).length)) →
      readItems (read (pre ++ ks.flatMap enc ++ post)) pre.length ks =
        some (itemsAt enc found pre.length ks, pre.length + (ks.flatMap enc).length)
  | [], _, _, _, _, _ => rfl
  | k :: ks, pre, post, hpre, hal, hread => by
    have hmem : ∀ m ∈ ks, m ∈ k :: ks := fun m hm => List.mem_cons_of_mem _ hm
    have hnext : aligned (pre ++ enc k).length := by
      rw [List.length_append]
      exact hal k (List.mem_cons_self ..) _ hpre
    have ih := readItems_written aligned read ks (pre ++ enc k) post hnext (fun m hm => hal m (hmem m hm))
      fun m hm => hread m (hmem m hm)
    have hassoc : pre ++ (k :: ks).flatMap enc ++ post = pre ++ enc k ++ (ks.flatMap enc ++ post) := by simp
    have hassoc' : pre ++ enc k ++ ks.flatMap enc ++ post = pre ++ enc k ++ (ks.flatMap enc ++ post) := by simp
    rw [hassoc'] at ih
    rw [List.length_append] at ih
    rw [hassoc, readItems, hread k (List.mem_cons_self ..) pre _ hpre]
    simp only [Option.bind_eq_bind, Option.bind_some, ih, itemsAt, List.flatMap_cons, List.length_append, Nat.add_assoc]

end

end BitForge.Lib
