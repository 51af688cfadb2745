/-
Decoders of block formats: programs that read bytes of a block and store numbers, both at offsets from where the block and
its output start. What a decoder touches, construct by construct, and what a run over the blocks of an array touches.
-/
import Mathlib.Tactic

namespace BitForge.Lib

/-- The result of a decoder, the offsets it read at and the stores it made. -/
structure Decoded (F α : Type) where
  val : α
  reads : List Nat
  stores : List (Nat × F)

/-- A decoder, over the bytes from where its block starts. -/
def Decoder (F α : Type) := (Nat → UInt8) → Decoded F α

namespace Decoder

variable {F α β : Type}

def ret (a : α) : Decoder F α := fun _ => ⟨a, [], []⟩

def andThen (m : Decoder F α) (f : α → Decoder F β) : Decoder F β := fun data =>
  let r := m data
  let s := f r.val data
  ⟨s.val, r.reads ++ s.reads, r.stores ++ s.stores⟩

instance : Monad (Decoder F) where
  pure := ret
  bind := andThen

def byte (o : Nat) : Decoder F Nat := fun data => ⟨(data o).toNat, [o], []⟩

def store (i : Nat) (v : F) : Decoder F Unit := fun _ => ⟨(), [], [(i, v)]⟩

/-- `for (i = 0; i < n; i++)` -/
def forEach : Nat → (Nat → Decoder F Unit) → Decoder F Unit
  | 0, _ => pure ()
  | n + 1, f => do
    forEach n f
    f n

/-- A loop that fills an array of its own. -/
def gather : Nat → (Nat → Decoder F α) → Decoder F (List α)
  | 0, _ => pure []
  | n + 1, f => do
    let l ← gather n f
    let a ← f n
    return l ++ [a]

/-- The decoder of a block that starts at `p`, with its output at `dst`. -/
def shift (m : Decoder F α) (p dst : Nat) : Decoder F α := fun data =>
  let r := m fun o => data (p + o)
  ⟨r.val, r.reads.map (p + ·), r.stores.map fun (i, v) => (dst + i, v)⟩

/-- A two-byte and a four-byte word, the lower bytes first. -/
def word16 (o : Nat) : Decoder F Nat := do
  let b0 ← byte o
  let b1 ← byte (o + 1)
  return b0 + 2 ^ 8 * b1

def word32 (o : Nat) : Decoder F Nat := do
  let h0 ← word16 o
  let h1 ← word16 (o + 2)
  return h0 + 2 ^ 16 * h1

/-- A signed byte. -/
def int8 (o : Nat) : Decoder F Int := do
  let b ← byte o
  return if b < 2 ^ 7 then b else (b : Int) - 2 ^ 8

/-! ## What is read and stored -/

/-- The decoder reads at an offset. -/
def Reads (m : Decoder F α) (data : Nat → UInt8) (r : Nat) : Prop := r ∈ (m data).reads

/-- The decoder stores at an offset. -/
def Stores (m : Decoder F α) (data : Nat → UInt8) (i : Nat) : Prop := ∃ v, (i, v) ∈ (m data).stores

section

variable {data : Nat → UInt8} {r i : Nat}

@[simp] theorem reads_pure (a : α) : Reads (pure a : Decoder F α) data r ↔ False := List.mem_nil_iff r

@[simp] theorem stores_pure (a : α) : Stores (pure a : Decoder F α) data i ↔ False := by
  constructor
  · rintro ⟨v, hv⟩
    cases hv
  · exact False.elim

@[simp] theorem reads_bind (m : Decoder F α) (f : α → Decoder F β) :
    Reads (m >>= f) data r ↔ Reads m data r ∨ Reads (f (m data).val) data r := List.mem_append

@[simp] theorem stores_bind (m : Decoder F α) (f : α → Decoder F β) :
    Stores (m >>= f) data i ↔ Stores m data i ∨ Stores (f (m data).val) data i := by
  constructor
  · rintro ⟨v, hv⟩
    exact (List.mem_append.1 hv).imp (⟨v, ·⟩) (⟨v, ·⟩)
  · rintro (⟨v, hv⟩ | ⟨v, hv⟩)
    · exact ⟨v, List.mem_append_left _ hv⟩
    · exact ⟨v, List.mem_append_right _ hv⟩

@[simp] theorem reads_byte (o : Nat) : Reads (byte o : Decoder F Nat) data r ↔ r = o := List.mem_singleton

@[simp] theorem stores_byte (o : Nat) : Stores (byte o : Decoder F Nat) data i ↔ False :=
  @stores_pure F Nat data i (data o).toNat

@[simp] theorem reads_store (j : Nat) (v : F) : Reads (store j v) data r ↔ False := List.mem_nil_iff r

@[simp] theorem stores_store (j : Nat) (v : F) : Stores (store j v) data i ↔ i = j := by
  constructor
  · rintro ⟨u, hu⟩
    exact congrArg Prod.fst (List.mem_singleton.1 hu)
  · rintro rfl
    exact ⟨v, List.mem_singleton.2 rfl⟩

@[simp] theorem reads_ite (c : Prop) [Decidable c] (m m' : Decoder F α) :
    Reads (if c then m else m') data r ↔ if c then Reads m data r else Reads m' data r := by
  split <;> rfl

@[simp] theorem stores_ite (c : Prop) [Decidable c] (m m' : Decoder F α) :
    Stores (if c then m else m') data i ↔ if c then Stores m data i else Stores m' data i := by
  split <;> rfl

theorem exists_lt_succ {p : Nat → Prop} {n : Nat} : (∃ k < n + 1, p k) ↔ (∃ k < n, p k) ∨ p n := by
  constructor
  · rintro ⟨k, hk, hp⟩
    rcases Nat.lt_succ_iff_lt_or_eq.1 hk with hlt | rfl
    · exact .inl ⟨k, hlt, hp⟩
    · exact .inr hp
  · rintro (⟨k, hk, hp⟩ | hp)
    · exact ⟨k, Nat.lt_succ_of_lt hk, hp⟩
    · exact ⟨n, Nat.lt_succ_self n, hp⟩

@[simp] theorem reads_forEach (f : Nat → Decoder F Unit) : ∀ n : Nat,
    Reads (forEach n f) data r ↔ ∃ k < n, Reads (f k) data r
  | 0 => by simp [forEach]
  | n + 1 => by
    unfold forEach
    rw [reads_bind, reads_forEach f n, exists_lt_succ]

@[simp] theorem stores_forEach (f : Nat → Decoder F Unit) : ∀ n : Nat,
    Stores (forEach n f) data i ↔ ∃ k < n, Stores (f k) data i
  | 0 => by simp [forEach]
  | n + 1 => by
    unfold forEach
    rw [stores_bind, stores_forEach f n, exists_lt_succ]

@[simp] theorem reads_gather (f : Nat → Decoder F α) : ∀ n : Nat,
    Reads (gather n f) data r ↔ ∃ k < n, Reads (f k) data r
  | 0 => by simp [gather]
  | n + 1 => by
    unfold gather
    rw [reads_bind, reads_bind, reads_gather f n, reads_pure, or_false, exists_lt_succ]

@[simp] theorem stores_gather (f : Nat → Decoder F α) : ∀ n : Nat,
    Stores (gather n f) data i ↔ ∃ k < n, Stores (f k) data i
  | 0 => by simp [gather]
  | n + 1 => by
    unfold gather
    rw [stores_bind, stores_bind, stores_gather f n, stores_pure, or_false, exists_lt_succ]

@[simp] theorem reads_shift (m : Decoder F α) (p dst : Nat) :
    Reads (m.shift p dst) data r ↔ ∃ o, Reads m (fun o => data (p + o)) o ∧ r = p + o := by
  unfold Reads shift
  dsimp only
  rw [List.mem_map]
  exact exists_congr fun o => and_congr_right fun _ => eq_comm

@[simp] theorem stores_shift (m : Decoder F α) (p dst : Nat) :
    Stores (m.shift p dst) data i ↔ ∃ j, Stores m (fun o => data (p + o)) j ∧ i = dst + j := by
  unfold Stores shift
  constructor
  · rintro ⟨v, hv⟩
    obtain ⟨⟨j, u⟩, hj, heq⟩ := List.mem_map.1 hv
    obtain ⟨hi, rfl⟩ := Prod.mk.inj heq
    exact ⟨j, ⟨u, hj⟩, hi.symm⟩
  · rintro ⟨j, ⟨v, hv⟩, rfl⟩
    exact ⟨v, List.mem_map.2 ⟨(j, v), hv, rfl⟩⟩

@[simp] theorem reads_word16 (o : Nat) : Reads (word16 o : Decoder F Nat) data r ↔ r = o ∨ r = o + 1 := by
  simp [word16]

@[simp] theorem stores_word16 (o : Nat) : Stores (word16 o : Decoder F Nat) data i ↔ False := by
  simp [word16]

@[simp] theorem reads_word32 (o : Nat) : Reads (word32 o : Decoder F Nat) data r ↔ o ≤ r ∧ r < o + 4 := by
  simp [word32]
  omega

@[simp] theorem stores_word32 (o : Nat) : Stores (word32 o : Decoder F Nat) data i ↔ False := by
  simp [word32]

@[simp] theorem reads_int8 (o : Nat) : Reads (int8 o : Decoder F Int) data r ↔ r = o := by
  simp [int8]

@[simp] theorem stores_int8 (o : Nat) : Stores (int8 o : Decoder F Int) data i ↔ False := by
  simp [int8]

end

/-! ## Blocks -/

/-- The decoder of a block reads inside its bytes and stores its cells, all of them and no other. -/
structure IsBlock (m : Decoder F Unit) (bytes cells : Nat) : Prop where
  reads : ∀ data r, Reads m data r → r < bytes
  stores : ∀ data i, Stores m data i ↔ i < cells

/-- The decoder of `n` blocks. -/
def blocks (m : Decoder F Unit) (bytes cells n : Nat) : Decoder F Unit :=
  forEach n fun b => m.shift (b * bytes) (b * cells)

/-- The blocks of an array are a block. -/
theorem IsBlock.blocks {m : Decoder F Unit} {bytes cells : Nat} (h : IsBlock m bytes cells) (n : Nat) :
    IsBlock (m.blocks bytes cells n) (n * bytes) (n * cells) where
  reads data r hr := by
    unfold Decoder.blocks at hr
    simp only [reads_forEach, reads_shift] at hr
    obtain ⟨b, hb, o, ho, rfl⟩ := hr
    have hlt := h.reads _ o ho
    calc b * bytes + o < b * bytes + bytes := Nat.add_lt_add_left hlt _
      _ = (b + 1) * bytes := (Nat.succ_mul b bytes).symm
      _ ≤ n * bytes := Nat.mul_le_mul_right bytes hb
  stores data i := by
    unfold Decoder.blocks
    simp only [stores_forEach, stores_shift, h.stores]
    constructor
    · rintro ⟨b, hb, j, hj, rfl⟩
      calc b * cells + j < b * cells + cells := Nat.add_lt_add_left hj _
        _ = (b + 1) * cells := (Nat.succ_mul b cells).symm
        _ ≤ n * cells := Nat.mul_le_mul_right cells hb
    · intro hi
      have hpos : 0 < cells := by
        rcases Nat.eq_zero_or_pos cells with rfl | hpos
        · rw [Nat.mul_zero] at hi
          exact absurd hi (Nat.not_lt_zero i)
        · exact hpos
      refine ⟨i / cells, (Nat.div_lt_iff_lt_mul hpos).2 hi, i % cells, Nat.mod_lt _ hpos, ?_⟩
      rw [Nat.mul_comm]
      exact (Nat.div_add_mod i cells).symm

/-- The blocks and then a rest, which starts where they end. -/
theorem IsBlock.append {m m' : Decoder F Unit} {bytes cells bytes' cells' : Nat} (h : IsBlock m bytes cells)
    (h' : IsBlock m' bytes' cells') :
    IsBlock (do m; m'.shift bytes cells) (bytes + bytes') (cells + cells') where
  reads data r hr := by
    simp only [reads_bind, reads_shift] at hr
    rcases hr with hr | ⟨o, ho, rfl⟩
    · exact Nat.lt_add_right _ (h.reads data r hr)
    · exact Nat.add_lt_add_left (h'.reads _ o ho) _
  stores data i := by
    simp only [stores_bind, stores_shift, h.stores, h'.stores]
    constructor
    · rintro (hi | ⟨j, hj, rfl⟩) <;> omega
    · intro hi
      by_cases hlt : i < cells
      · exact .inl hlt
      · exact .inr ⟨i - cells, by omega, by omega⟩

end Decoder

end BitForge.Lib
