/-
The GGUF header reader stays in its file: it reads inside the mapping, in a number of cursor steps
linear in its size, and records lengths and arrays inside the file, where no length of a string wraps
around in a comparison and, exactly then, where every scalar of the metadata lies in the file.
-/
import BitForge.Gguf.Reader
import Mathlib.Tactic

namespace BitForge.Gguf

open BitForge.Lib

/-! ## What a safe run is -/

/-- A value of a type occupies the bytes from `p` to before `q`. -/
inductive ValueAt (m : Mapped) : GGUFValType → Nat → Nat → Prop
  | scalar {ty : GGUFValType} {p n : Nat} : ty.scalarBytes = some n → ValueAt m ty p (p + n)
  | string {p : Nat} : ValueAt m .string p (p + 8 + m.num p 8)
  | array {p : Nat} {ends : Nat → Nat} : ends 0 = p + 12 →
    (∀ i < m.num (p + 4) 8, ValueAt m (.ofCode (m.num p 4)) (ends i) (ends (i + 1))) →
    ValueAt m .array p (ends (m.num (p + 4) 8))

/-- The string or the array that an entry records occupies bytes of the file up to before `e`. -/
def MetaVal.EndsAt (m : Mapped) (e : Nat) : MetaVal → Prop
  | .scalar _ => True
  | .string str len => ∃ p, m.base ≤ p ∧ p + len ≤ e ∧ str = m.bytes p len
  | .array elemType count data => m.base ≤ data ∧ ∃ q, Elems (ValueAt m elemType) count data q ∧ q ≤ e

/-- A read inside the mapping; a comparison reads nothing. -/
def Event.Inside (m : Mapped) : Event → Prop
  | .read p n | .scalar p n => m.base ≤ p ∧ p + n ≤ m.last
  | .length .. => True

/-- A comparison that accepts a length accepts no sum that wrapped around. -/
def Event.NoWrap (m : Mapped) : Event → Prop
  | .length p len => (p + len) % 2 ^ 64 ≤ m.last → p + len < 2 ^ 64
  | .read .. | .scalar .. => True

/-- A scalar value ends before the file does. -/
def Event.ScalarFits (m : Mapped) : Event → Prop
  | .scalar p n => p + n ≤ m.last
  | .read .. | .length .. => True

structure SafeHeader (m : Mapped) (r : Logged Event Cursor GGUFHeader) : Prop where
  reads : ∀ e ∈ r.log, e.Inside m
  steps : r.state.steps ≤ 4 * m.size + 28
  returns : r.outcome ≠ .deep
  ranges : ∀ hdr, r.outcome = .ok hdr → ∀ e ∈ hdr.metas, e.val.EndsAt m m.last

/-! ## The cursor's invariant -/

/-- The cursor is at `p`, at most seven bytes behind the file, and `k` steps are to spare. -/
structure At (m : Mapped) (p k : Nat) (c : Cursor) : Prop where
  here : c.p = p
  low : m.base ≤ p
  high : p ≤ m.last + 7
  steps : c.steps + k ≤ 4 * (p - m.base)

def rely (m : Mapped) : Rely Event Cursor where
  assumed e := e.NoWrap m ∧ e.ScalarFits m
  shown e := e.Inside m
  failed c := c.steps ≤ 4 * m.size + 28

variable {m : Mapped} {p k : Nat}

theorem At.failed {c : Cursor} (h : At m p k c) : (rely m).failed c := by
  have hlast : m.last = m.base + m.size := rfl
  have := h.high
  have := h.steps
  change c.steps ≤ 4 * m.size + 28
  omega

theorem At.spend {c : Cursor} {j : Nat} (h : At m p k c) (hj : j ≤ k) : At m p j c :=
  ⟨h.here, h.low, h.high, by have := h.steps; omega⟩

theorem Mapped.last_lt (m : Mapped) : m.last + 4096 ≤ 2 ^ 64 := m.below

/-! ## The primitives -/

theorem fail_ok {α : Type} {Q : α → Cursor → Prop} : Triple (rely m) (At m p k) Prog.fail Q :=
  Triple.fail fun _ h => h.failed

theorem cursor_ok : Triple (rely m) (At m p k) cursor fun a c => At m p k c ∧ a = p :=
  fun _ hc _ => ⟨nofun, hc, hc.here⟩

theorem require_ok {n : Nat} (hn : n ≤ 12) :
    Triple (rely m) (At m p k) (require m n) fun _ c => At m p k c ∧ p + n ≤ m.last := by
  intro c hc _
  have hlast := m.last_lt
  have hhigh := hc.high
  have hmod : (c.p + n) % 2 ^ 64 = p + n := by
    rw [hc.here]
    exact Nat.mod_eq_of_lt (by omega)
  unfold require
  rw [hmod]
  split
  · exact ⟨nofun, hc.failed⟩
  · next h => exact ⟨nofun, hc, Nat.le_of_not_lt h⟩

theorem requireMore_ok : Triple (rely m) (At m p k) (requireMore m) fun _ c => At m p k c ∧ p < m.last := by
  intro c hc _
  unfold requireMore
  rw [hc.here]
  split
  · exact ⟨nofun, hc.failed⟩
  · next h => exact ⟨nofun, hc, Nat.lt_of_not_le h⟩

/-- An accepted length fits in the file, as its sum did not wrap around. -/
theorem requireLength_ok {len : Nat} :
    Triple (rely m) (At m p k) (requireLength m len) fun _ c => At m p k c ∧ p + len ≤ m.last := by
  intro c hc
  unfold requireLength
  rw [hc.here]
  split
  · refine fun _ => ⟨fun e he => ?_, hc.failed⟩
    rw [List.mem_singleton.1 he]
    exact trivial
  · next h =>
    intro hlog
    have hwrap := (hlog _ (List.mem_singleton.2 rfl)).1 (Nat.le_of_not_lt h)
    rw [Nat.mod_eq_of_lt hwrap] at h
    refine ⟨fun e he => ?_, hc, Nat.le_of_not_lt h⟩
    rw [List.mem_singleton.1 he]
    exact trivial

/-- A move of `n` bytes pays for the steps up to it, and for `j` more. -/
theorem At.move {c : Cursor} {n j : Nat} (h : At m p k c) (hn : p + n ≤ m.last + 7) (hj : j + 1 ≤ k + 4 * n) :
    At m (p + n) j ⟨(c.p + n) % 2 ^ 64, c.steps + 1⟩ := by
  have hlast := m.last_lt
  have hlow := h.low
  have hsteps := h.steps
  refine ⟨?_, by omega, hn, by dsimp only; omega⟩
  rw [h.here]
  exact Nat.mod_eq_of_lt (by omega)

theorem readNum_ok {n : Nat} (h0 : 0 < n) (hn : p + n ≤ m.last) :
    Triple (rely m) (At m p k) (readNum m n) fun v c => At m (p + n) (k + 3) c ∧ v = m.num p n := by
  intro c hc _
  refine ⟨fun e he => ?_, hc.move (by omega) (by omega), by rw [hc.here]⟩
  rw [List.mem_singleton.1 he, hc.here]
  exact ⟨hc.low, hn⟩

/-- A scalar is in the file by what is assumed of it. -/
theorem readScalar_ok {n : Nat} (h0 : 0 < n) :
    Triple (rely m) (At m p k) (readScalar m n) fun v c => At m (p + n) (k + 3) c ∧ v = m.num p n := by
  intro c hc hlog
  have hn : c.p + n ≤ m.last := (hlog _ (List.mem_singleton.2 rfl)).2
  rw [hc.here] at hn
  refine ⟨fun e he => ?_, hc.move (by omega) (by omega), by rw [hc.here]⟩
  rw [List.mem_singleton.1 he, hc.here]
  exact ⟨hc.low, hn⟩

theorem copyBytes_ok {n : Nat} (hn : p + n ≤ m.last) :
    Triple (rely m) (At m p (k + 1)) (copyBytes m n) fun bs c => At m p k c ∧ bs = m.bytes p n := by
  intro c hc _
  refine ⟨fun e he => ?_, ⟨hc.here, hc.low, hc.high, ?_⟩, by rw [hc.here]⟩
  · rw [List.mem_singleton.1 he, hc.here]
    exact ⟨hc.low, hn⟩
  · have hsteps := hc.steps
    change c.steps + 1 + k ≤ 4 * (p - m.base)
    omega

theorem advance_ok {n : Nat} (hn : p + n ≤ m.last) :
    Triple (rely m) (At m p (k + 1)) (advance n) fun _ c => At m (p + n) k c :=
  fun _ hc _ => ⟨nofun, hc.move (by omega) (by omega)⟩

/-- A scalar of an array is skipped from inside the file to at most seven bytes behind it. -/
theorem advance_scalar_ok {n : Nat} (h0 : 0 < n) (h8 : n ≤ 8) (hp : p < m.last) :
    Triple (rely m) (At m p k) (advance n) fun _ c => At m (p + n) k c :=
  fun _ hc _ => ⟨nofun, hc.move (by omega) (by omega)⟩

/-! ## Strings and skipped values -/

theorem readStr_ok {outSz : Nat} :
    Triple (rely m) (At m p 0) (readStr m outSz) fun _ c => ∃ q : Nat, p ≤ q ∧ At m q 0 c := by
  unfold readStr
  refine Triple.bind_and (require_ok (by omega)) fun _ h8 => ?_
  refine Triple.bind_and (readNum_ok (by omega) h8) fun len _ => ?_
  refine Triple.bind_and requireLength_ok fun _ hlen => ?_
  refine Triple.bind_and (copyBytes_ok (k := 2) (by split <;> omega)) fun _ _ => ?_
  refine Triple.bind (advance_ok (k := 1) hlen) fun _ => Triple.ret fun c hc => ?_
  exact ⟨p + 8 + len, by omega, hc.spend (by omega)⟩

theorem scalarBytes_bounds {ty : GGUFValType} {n : Nat} (h : ty.scalarBytes = some n) : 0 < n ∧ n ≤ 8 := by
  cases ty <;> cases h <;> decide

theorem ValueAt.of_elems {p e : Nat} (h : Elems (ValueAt m (.ofCode (m.num p 4))) (m.num (p + 4) 8) (p + 12) e) :
    ValueAt m .array p e := by
  obtain ⟨ends, h0, rfl, hV⟩ := h
  exact .array h0 hV

/-- With at least a level of recursion for every twelve bytes left a value is skipped or refused. -/
theorem skipMetaValue_ok : ∀ (depth : Nat) (ty : GGUFValType) (p : Nat), m.last ≤ p + 12 * depth →
    Triple (rely m) (At m p 0) (skipMetaValue m depth ty) fun _ c => ∃ q, (ValueAt m ty p q ∧ p ≤ q) ∧ At m q 0 c
  | 0, ty, p, hdepth => by
    unfold skipMetaValue
    exact Triple.bind_and requireMore_ok fun _ hp => absurd hdepth (by omega)
  | depth + 1, ty, p, hdepth => by
    unfold skipMetaValue
    refine Triple.bind_and requireMore_ok fun _ hp => ?_
    split
    · next n hn =>
      obtain ⟨h0, h8⟩ := scalarBytes_bounds hn
      exact (advance_scalar_ok h0 h8 hp).weaken (fun _ hc => hc) fun _ c hc => ⟨p + n, ⟨.scalar hn, by omega⟩, hc⟩
    · split
      · refine Triple.bind_and (require_ok (by omega)) fun _ h8 => ?_
        refine Triple.bind_and (readNum_ok (by omega) h8) fun slen hslen => ?_
        refine Triple.bind_and requireLength_ok fun _ hlen => ?_
        refine (advance_ok (k := 2) hlen).weaken (fun _ hc => hc) fun _ c hc => ?_
        have hstring : ValueAt m .string p (p + 8 + slen) := by
          rw [hslen]
          exact .string
        exact ⟨_, ⟨hstring, by omega⟩, hc.spend (by omega)⟩
      · refine Triple.bind_and (require_ok (by omega)) fun _ h12 => ?_
        refine Triple.bind_and (readNum_ok (by omega) (by omega)) fun elemType htype => ?_
        refine Triple.bind_and (readNum_ok (by omega) (by omega)) fun count hcount => ?_
        rw [htype, hcount]
        have hstep : ∀ q, p + 12 ≤ q → Triple (rely m) (At m q 0) (skipMetaValue m depth (.ofCode (m.num p 4)))
            fun _ c => ∃ e, (ValueAt m (.ofCode (m.num p 4)) q e ∧ q ≤ e) ∧ At m e 0 c :=
          fun q hq => skipMetaValue_ok depth _ q (by omega)
        refine (Triple.repeatN hstep (m.num (p + 4) 8) (p + 12) (Nat.le_refl _)).weaken
          (fun _ hc => At.spend hc (Nat.zero_le _)) fun _ c => ?_
        rintro ⟨e, ⟨he, hle⟩, hc⟩
        exact ⟨e, ⟨.of_elems he, by omega⟩, hc⟩
      · exact fail_ok

/-! ## Metadata entries -/

theorem MetaVal.EndsAt.mono {v : MetaVal} {e e' : Nat} (h : v.EndsAt m e) (he : e ≤ e') : v.EndsAt m e' := by
  cases v with
  | scalar bits => exact trivial
  | string str len =>
    obtain ⟨q, hlow, hle, hstr⟩ := h
    exact ⟨q, hlow, Nat.le_trans hle he, hstr⟩
  | array elemType count data =>
    obtain ⟨hlow, q, helems, hle⟩ := h
    exact ⟨hlow, q, helems, Nat.le_trans hle he⟩

theorem parseMetaEntry_ok {alloc : Nat → Bool} {depth : Nat} (hlow : m.base ≤ p) (hdepth : m.last ≤ p + 12 * depth) :
    Triple (rely m) (At m p 0) (parseMetaEntry m alloc depth)
      fun e c => ∃ q, (e.val.EndsAt m q ∧ p ≤ q) ∧ At m q 0 c := by
  unfold parseMetaEntry
  refine Triple.bind readStr_ok fun key => Triple.exists fun a => Triple.and_left fun ha => ?_
  refine Triple.bind_and (require_ok (by omega)) fun _ h4 => ?_
  refine Triple.bind_and (readNum_ok (by omega) h4) fun code _ => ?_
  dsimp only
  split
  · next n hn =>
    obtain ⟨h0, -⟩ := scalarBytes_bounds hn
    refine Triple.bind_and (readScalar_ok h0) fun bits _ => Triple.ret fun c hc => ?_
    exact ⟨a + 4 + n, ⟨trivial, by omega⟩, hc.spend (by omega)⟩
  · split
    · refine Triple.bind_and (require_ok (by omega)) fun _ h8 => ?_
      refine Triple.bind_and (readNum_ok (by omega) h8) fun slen _ => ?_
      refine Triple.bind_and requireLength_ok fun _ hlen => ?_
      split
      · refine Triple.bind_and (copyBytes_ok (k := 5) hlen) fun str hstr => ?_
        refine Triple.bind (advance_ok (k := 4) hlen) fun _ => Triple.ret fun c hc => ?_
        exact ⟨a + 4 + 8 + slen, ⟨⟨a + 4 + 8, by omega, Nat.le_refl _, hstr⟩, by omega⟩, hc.spend (by omega)⟩
      · exact fail_ok
    · refine Triple.bind_and (require_ok (by omega)) fun _ h12 => ?_
      refine Triple.bind_and (readNum_ok (by omega) (by omega)) fun elemType _ => ?_
      refine Triple.bind_and (readNum_ok (by omega) (by omega)) fun count _ => ?_
      refine Triple.bind_and cursor_ok fun data hdata => ?_
      subst hdata
      have hstep : ∀ q, a + 4 + 4 + 8 ≤ q → Triple (rely m) (At m q 0) (skipMetaValue m depth (.ofCode elemType))
          fun _ c => ∃ e, (ValueAt m (.ofCode elemType) q e ∧ q ≤ e) ∧ At m e 0 c :=
        fun q hq => skipMetaValue_ok depth _ q (by omega)
      refine Triple.bind ((Triple.repeatN hstep count _ (Nat.le_refl _)).weaken
        (fun _ hc => At.spend hc (Nat.zero_le _)) fun _ _ hc => hc) fun _ => ?_
      refine Triple.exists fun e => Triple.and_left fun ⟨he, hle⟩ => Triple.ret fun c hc => ?_
      exact ⟨e, ⟨⟨by omega, e, he, Nat.le_refl e⟩, by omega⟩, hc⟩
    · exact fail_ok

/-- The entries read so far end before the cursor. -/
theorem readMetas_ok {alloc : Nat → Bool} {depth : Nat} : ∀ (n : Nat) (hdr : GGUFHeader) (p : Nat), m.base ≤ p →
    m.last ≤ p + 12 * depth → (∀ e ∈ hdr.metas, e.val.EndsAt m p) →
    Triple (rely m) (At m p 0) (readMetas m alloc depth n hdr)
      fun hdr c => ∃ q, ((∀ e ∈ hdr.metas, e.val.EndsAt m q) ∧ p ≤ q) ∧ At m q 0 c
  | 0, hdr, p, _, _, hmetas => Triple.ret fun c hc => ⟨p, ⟨hmetas, Nat.le_refl p⟩, hc⟩
  | n + 1, hdr, p, hlow, hdepth, hmetas => by
    unfold readMetas
    refine Triple.bind (parseMetaEntry_ok hlow hdepth) fun e => Triple.exists fun q => Triple.and_left fun ⟨he, hq⟩ => ?_
    have hmetas' : ∀ e' ∈ (hdr.addMeta e).metas, e'.val.EndsAt m q := by
      intro e' he'
      rcases List.mem_append.1 he' with he' | he'
      · exact (hmetas e' he').mono hq
      · rw [List.mem_singleton.1 he']
        exact he
    refine (readMetas_ok n (hdr.addMeta e) q (by omega) (by omega) hmetas').weaken (fun _ hc => hc) ?_
    rintro hdr' c ⟨q', ⟨hend, hle⟩, hc⟩
    exact ⟨q', ⟨hend, by omega⟩, hc⟩

/-! ## Tensor infos -/

theorem readDims_ok : ∀ (n p : Nat), Triple (rely m) (At m p 0) (readDims m n) fun _ c => ∃ q, p ≤ q ∧ At m q 0 c
  | 0, p => Triple.ret fun c hc => ⟨p, Nat.le_refl p, hc⟩
  | n + 1, p => by
    unfold readDims
    refine Triple.bind_and (require_ok (by omega)) fun _ h8 => ?_
    refine Triple.bind_and (readNum_ok (by omega) h8) fun d _ => ?_
    refine Triple.bind ((readDims_ok n (p + 8)).weaken (fun _ hc => hc.spend (Nat.zero_le _)) fun _ _ hc => hc) fun ds => ?_
    refine Triple.ret ?_
    rintro c ⟨q, hq, hc⟩
    exact ⟨q, by omega, hc⟩

theorem readTensor_ok : Triple (rely m) (At m p 0) (readTensor m) fun _ c => ∃ q, p ≤ q ∧ At m q 0 c := by
  unfold readTensor
  refine Triple.bind readStr_ok fun name => Triple.exists fun a => Triple.and_left fun ha => ?_
  refine Triple.bind_and (require_ok (by omega)) fun _ h4 => ?_
  refine Triple.bind_and (readNum_ok (by omega) h4) fun nDims _ => ?_
  refine Triple.bind ((readDims_ok _ (a + 4)).weaken (fun _ hc => hc.spend (Nat.zero_le _)) fun _ _ hc => hc) fun dims => ?_
  refine Triple.exists fun b => Triple.and_left fun hb => ?_
  refine Triple.bind_and (require_ok (by omega)) fun _ h12 => ?_
  refine Triple.bind_and (readNum_ok (by omega) (by omega)) fun type _ => ?_
  refine Triple.bind_and (readNum_ok (by omega) (by omega)) fun offset _ => Triple.ret fun c hc => ?_
  exact ⟨b + 4 + 8, by omega, hc.spend (Nat.zero_le _)⟩

/-- The tensor infos leave the metadata as it is. -/
theorem readTensors_ok : ∀ (n : Nat) (hdr : GGUFHeader) (p : Nat),
    Triple (rely m) (At m p 0) (readTensors m n hdr)
      fun hdr' c => ∃ q, (hdr'.metas = hdr.metas ∧ p ≤ q) ∧ At m q 0 c
  | 0, hdr, p => Triple.ret fun c hc => ⟨p, ⟨rfl, Nat.le_refl p⟩, hc⟩
  | n + 1, hdr, p => by
    unfold readTensors
    refine Triple.bind readTensor_ok fun t => Triple.exists fun q => Triple.and_left fun hq => ?_
    refine (readTensors_ok n _ q).weaken (fun _ hc => hc) ?_
    rintro hdr' c ⟨q', ⟨hmetas, hle⟩, hc⟩
    exact ⟨q', ⟨hmetas, by omega⟩, hc⟩

/-! ## The header -/

theorem le_dataStart (hlow : m.base ≤ p) (hhigh : p ≤ m.last + 7) (version : Nat) :
    p - m.base ≤ dataStart m version p := by
  have hbelow := m.last_lt
  have hend : (p + 2 ^ 64 - m.base) % 2 ^ 64 = p - m.base := by omega
  unfold dataStart
  dsimp only
  rw [hend]
  split <;> omega

/-- A data region that starts inside the file is behind a cursor inside the file. -/
theorem locateTensors_ok {hdr : GGUFHeader} (hmetas : ∀ e ∈ hdr.metas, e.val.EndsAt m p) :
    Triple (rely m) (At m p 0) (locateTensors m p hdr)
      fun hdr' c => (∀ e ∈ hdr'.metas, e.val.EndsAt m m.last) ∧ At m p 0 c := by
  unfold locateTensors
  dsimp only
  split
  · exact fail_ok
  · next hstart =>
    refine Triple.ret fun c hc => ⟨fun e he => (hmetas e he).mono ?_, hc⟩
    have hle := le_dataStart hc.low hc.high hdr.version
    have hlow := hc.low
    unfold Mapped.last
    omega

theorem readHeader_ok {alloc : Nat → Bool} {depth : Nat} (hsize : 24 ≤ m.size) (hdepth : m.size ≤ 12 * depth) :
    Triple (rely m) (At m m.base 0) (readHeader m alloc depth)
      fun hdr c => (∀ e ∈ hdr.metas, e.val.EndsAt m m.last) ∧ c.steps ≤ 4 * m.size + 28 := by
  have hlast : m.last = m.base + m.size := rfl
  unfold readHeader
  refine Triple.bind_and (readNum_ok (by omega) (by omega)) fun magic _ => ?_
  split
  · exact fail_ok
  refine Triple.bind_and (readNum_ok (by omega) (by omega)) fun version _ => ?_
  split
  · exact fail_ok
  have hwidth : 0 < (if version = 1 then 4 else 8) ∧ (if version = 1 then 4 else 8) ≤ 8 := by split <;> omega
  generalize (if version = 1 then 4 else 8) = w at hwidth
  refine Triple.bind_and (readNum_ok (by omega) (by omega)) fun nTensors _ => ?_
  refine Triple.bind_and (readNum_ok (by omega) (by omega)) fun nMeta _ => ?_
  split
  · exact fail_ok
  refine Triple.bind ((readMetas_ok nMeta _ _ (by omega) (by omega) fun e he => absurd he List.not_mem_nil).weaken
    (fun _ hc => hc.spend (Nat.zero_le _)) fun _ _ hc => hc) fun hdr => ?_
  refine Triple.exists fun a => Triple.and_left fun ⟨hmetas, ha⟩ => ?_
  refine Triple.bind (readTensors_ok nTensors hdr a) fun hdr' => Triple.exists fun b => Triple.and_left fun ⟨hsame, hb⟩ => ?_
  refine Triple.bind_and cursor_ok fun q hq => ?_
  subst hq
  refine (locateTensors_ok ?_).weaken (fun _ hc => hc) fun _ c hc => ⟨hc.1, hc.2.failed⟩
  intro e he
  rw [hsame] at he
  exact (hmetas e he).mono hb

instance (m : Mapped) : DecidablePred (Event.NoWrap m)
  | .length p len => inferInstanceAs (Decidable ((p + len) % 2 ^ 64 ≤ m.last → p + len < 2 ^ 64))
  | .read .. | .scalar .. => .isTrue trivial

instance (m : Mapped) : DecidablePred (Event.ScalarFits m)
  | .scalar p n => inferInstanceAs (Decidable (p + n ≤ m.last))
  | .read .. | .length .. => .isTrue trivial

/-- Where no accepted length wraps around, the reader is safe exactly if every scalar value that it
takes lies in the file. -/
theorem ggufReadHeader_safe_iff (m : Mapped) (alloc : Nat → Bool) {depth : Nat} (hdepth : m.size ≤ 12 * depth)
    (hlength : ∀ e ∈ (ggufReadHeader m alloc depth).log, e.NoWrap m) :
    SafeHeader m (ggufReadHeader m alloc depth) ↔ ∀ e ∈ (ggufReadHeader m alloc depth).log, e.ScalarFits m := by
  constructor
  · intro h e he
    cases e with
    | scalar p n => exact (h.reads _ he).2
    | read p n => exact trivial
    | length p len => exact trivial
  · intro hscalar
    unfold ggufReadHeader at hlength hscalar ⊢
    split at hlength
    · next h =>
      rw [if_pos h]
      exact ⟨nofun, Nat.zero_le _, nofun, nofun⟩
    · next h =>
      rw [if_neg h] at hscalar ⊢
      have hat : At m m.base 0 ⟨m.base, 0⟩ := ⟨rfl, Nat.le_refl _, by unfold Mapped.last; omega, Nat.zero_le _⟩
      obtain ⟨hreads, hends⟩ := readHeader_ok (by omega) hdepth _ hat fun e he => ⟨hlength e he, hscalar e he⟩
      generalize readHeader m alloc depth ⟨m.base, 0⟩ = r at hreads hends
      rcases r with ⟨o, c, log⟩
      cases o with
      | ok hdr =>
        refine ⟨hreads, hends.2, nofun, ?_⟩
        rintro _ ⟨⟩
        exact hends.1
      | fail => exact ⟨hreads, hends, nofun, nofun⟩
      | deep => exact absurd hends id

/-- The mapping of a file at the second page. -/
def mapFile (bs : List UInt8) (h : bs.length ≤ 4096) : Mapped where
  base := 4096
  size := bs.length
  mem a := bs.getD (a - 4096) 0
  below := by omega

/-- Version 3, no tensor and one metadata entry, of the empty key and of type `uint32`. -/
def uint32Header : List UInt8 :=
  ascii "GGUF" ++ [3, 0, 0, 0] ++ List.replicate 8 0 ++ [1, 0, 0, 0, 0, 0, 0, 0] ++ List.replicate 8 0 ++ [4, 0, 0, 0]

theorem ggufReadHeader_safe_iff_uint32 :
    SafeHeader (mapFile (uint32Header ++ List.replicate 28 7) (by decide))
      (ggufReadHeader (mapFile (uint32Header ++ List.replicate 28 7) (by decide)) (fun _ => true) 6) :=
  (ggufReadHeader_safe_iff _ (fun _ => true) (by decide : _ ≤ 12 * 6) (by decide +kernel)).2 (by decide +kernel)

/-- A file that ends where its scalar should be: the reader reads behind the mapping. -/
theorem scalar_behind_file :
    ¬ ∀ (m : Mapped) (alloc : Nat → Bool) (depth : Nat), m.size ≤ 12 * depth → SafeHeader m (ggufReadHeader m alloc depth) := by
  intro h
  have hread : Event.scalar 4132 4 ∈ (ggufReadHeader (mapFile uint32Header (by decide)) (fun _ => true) 3).log := by
    decide +kernel
  have hinside := (h (mapFile uint32Header (by decide)) (fun _ => true) 3 (by decide)).reads _ hread
  exact absurd hinside.2 (by decide)

end BitForge.Gguf
