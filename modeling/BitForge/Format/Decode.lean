/-
The loader on the bytes that the exporter writes: where each command fits its tensor the pointer
stays in step, and the kernel decodes the exported values of a matrix whose rows are whole bytes.
-/
import BitForge.Format.Sync

namespace BitForge.Format

open BitForge.Lib

/-! ## The loader on a file -/

/-- The byte count of a command keeps the pointer in step with the tensor written. -/
def Sync : Block → Cmd → Prop
  | .plain n, .mapAlign bytes => bytes = n
  | .ternary rows cols, .mapCopy bytes => bytes = alignUp (packedLen (rows * cols))
  | .ternary rows cols, .mapAlignCopy bytes => alignUp bytes = alignUp (packedLen (rows * cols))
  | _, _ => False

section

variable (c : HfConfig) (w : Weights)

theorem length_blockBytes_ternary {n : TensorName} {rows cols : Nat} (h : shape c n = .ternary rows cols) :
    (blockBytes c w n).length = alignUp (packedLen (rows * cols)) + 64 := by
  unfold blockBytes
  rw [h]
  dsimp only
  rw [List.length_append, length_padTo64, length_padTo64, length_packTernary]
  rfl

/-- The word at the start of the scale of a ternary tensor. -/
theorem rd32_scale {n : TensorName} {rows cols : Nat} (h : shape c n = .ternary rows cols) (pre post : List UInt8) :
    rd32 (pre ++ blockBytes c w n ++ post) (pre.length + alignUp (packedLen (rows * cols))) = (w n).scale.toNat := by
  have hlen : (padTo64 (packTernary (w n) rows cols)).length = alignUp (packedLen (rows * cols)) := by simp
  unfold blockBytes
  rw [h]
  dsimp only
  rw [List.append_assoc, List.append_assoc, rd32_append_right, ← hlen]
  have hz : (padTo64 (packTernary (w n) rows cols)).length = (padTo64 (packTernary (w n) rows cols)).length + 0 := rfl
  rw [hz, rd32_append_right]
  unfold padTo64
  rw [List.append_assoc, rd32_le32_append]
  exact Nat.mod_eq_of_lt (w n).scale.toNat_lt

theorem runCmd_sync {n : TensorName} {cmd : Cmd} (hs : Sync (shape c n) cmd) {pre : List UInt8}
    (hpre : pre.length % 64 = 0) (post : List UInt8) :
    runCmd (pre ++ blockBytes c w n ++ post) pre.length n cmd =
      some (⟨n, pre.length, blockScale c w n⟩, pre.length + (blockBytes c w n).length) := by
  have hlen : (pre ++ blockBytes c w n ++ post).length = pre.length + (blockBytes c w n).length + post.length := by
    rw [List.length_append, List.length_append]
  cases hb : shape c n with
  | plain k =>
    rw [hb] at hs
    cases cmd with
    | mapCopy | mapAlignCopy => exact absurd hs id
    | mapAlign bytes =>
      obtain rfl : bytes = k := hs
      have hblk : (blockBytes c w n).length = alignUp bytes := by unfold blockBytes; rw [hb]; simp
      have hscale : blockScale c w n = none := by unfold blockScale; rw [hb]
      have hle := le_alignUp bytes
      have hadd := alignUp_add hpre bytes
      simp only [runCmd, Option.bind_eq_bind]
      rw [mapPtr_eq (by omega), Option.bind_some, alignPtr_eq (by omega), Option.bind_some, hscale, hadd, hblk]
  | ternary rows cols =>
    rw [hb] at hs
    have hblk := length_blockBytes_ternary c w hb
    have hscale : blockScale c w n = some (w n).scale.toNat := by unfold blockScale; rw [hb]
    have hword := rd32_scale c w hb pre post
    have h64 : alignUp (pre.length + alignUp (packedLen (rows * cols)) + 4) =
        pre.length + alignUp (packedLen (rows * cols)) + 64 := by
      rw [Nat.add_assoc, alignUp_add hpre, alignUp_add (alignUp_mod _)]; rfl
    cases cmd with
    | mapAlign => exact absurd hs id
    | mapCopy bytes =>
      obtain rfl : bytes = alignUp (packedLen (rows * cols)) := hs
      simp only [runCmd, Option.bind_eq_bind]
      rw [mapPtr_eq (by omega), Option.bind_some, copyValAlign_eq (by omega), Option.bind_some, hscale, hword, h64, hblk]
      rfl
    | mapAlignCopy bytes =>
      have hs' : alignUp bytes = alignUp (packedLen (rows * cols)) := hs
      have hle := le_alignUp bytes
      have hadd := alignUp_add hpre bytes
      simp only [runCmd, Option.bind_eq_bind]
      rw [mapPtr_eq (by omega), Option.bind_some, alignPtr_eq (by omega), Option.bind_some, hadd, hs',
        copyValAlign_eq (by omega), Option.bind_some, hscale, hword, h64, hblk]
      rfl

/-- The pointers and scales of the tensors of a list, from the offset `p` on. -/
def pointers : Nat → List TensorName → List Mapped
  | _, [] => []
  | p, n :: ns => ⟨n, p, blockScale c w n⟩ :: pointers (p + (blockBytes c w n).length) ns

theorem pointers_layout : ∀ (ns : List TensorName) (p : Nat),
    (pointers c w p ns).map (fun m => (⟨m.name, m.ptr + 128, m.scale⟩ : Written)) = layout c w (p + 128) ns
  | [], _ => rfl
  | n :: ns, p => by
    simp only [pointers, layout, List.map_cons, pointers_layout ns]
    rw [Nat.add_right_comm]

theorem runCmds_sync : ∀ (cmds : List (TensorName × Cmd)) (pre post : List UInt8), pre.length % 64 = 0 →
    (∀ p ∈ cmds, Sync (shape c p.1) p.2) →
      runCmds (pre ++ (cmds.map Prod.fst).flatMap (blockBytes c w) ++ post) pre.length cmds =
        some (pointers c w pre.length (cmds.map Prod.fst),
          pre.length + ((cmds.map Prod.fst).flatMap (blockBytes c w)).length)
  | [], pre, post, _, _ => rfl
  | (n, cmd) :: cmds, pre, post, hpre, h => by
    have hhead : Sync (shape c n) cmd := h (n, cmd) (List.mem_cons_self ..)
    have hmod : (pre ++ blockBytes c w n).length % 64 = 0 := by
      rw [List.length_append, Nat.add_mod, hpre, blockBytes_mod]
    have ih := runCmds_sync cmds (pre ++ blockBytes c w n) post hmod fun p hp => h p (List.mem_cons_of_mem _ hp)
    simp only [List.map_cons, List.flatMap_cons, runCmds, Option.bind_eq_bind, pointers]
    have hassoc : pre ++ (blockBytes c w n ++ (cmds.map Prod.fst).flatMap (blockBytes c w)) ++ post =
        pre ++ blockBytes c w n ++ ((cmds.map Prod.fst).flatMap (blockBytes c w) ++ post) := by simp
    rw [hassoc, runCmd_sync c w hhead hpre, Option.bind_some]
    rw [List.length_append, List.append_assoc (pre ++ blockBytes c w n)] at ih
    rw [ih, Option.bind_some, List.length_append, Nat.add_assoc]

theorem pointers_append : ∀ (ms ns : List TensorName) (p : Nat),
    pointers c w p (ms ++ ns) = pointers c w p ms ++ pointers c w (p + (ms.flatMap (blockBytes c w)).length) ns
  | [], _, _ => rfl
  | m :: ms, ns, p => by
    simp only [List.cons_append, pointers, pointers_append ms, List.flatMap_cons, List.length_append, Nat.add_assoc]

theorem mem_pointers {m : Mapped} : ∀ {ns : List TensorName} {p : Nat}, m ∈ pointers c w p ns →
    ∃ as bs, ns = as ++ m.name :: bs ∧ m.ptr = p + (as.flatMap (blockBytes c w)).length
  | [], _, h => absurd h List.not_mem_nil
  | n :: ns, p, h => by
    unfold pointers at h
    rcases List.mem_cons.1 h with rfl | h
    · exact ⟨[], ns, rfl, rfl⟩
    · obtain ⟨as, bs, rfl, hp⟩ := mem_pointers h
      refine ⟨n :: as, bs, rfl, ?_⟩
      rw [hp, List.flatMap_cons, List.length_append, Nat.add_assoc]

/-- The weight data of the file. -/
def weightData : List UInt8 := (exportOrder c).flatMap (blockBytes c w)

theorem convertMoe_file : convertMoe c w = if packable c then
    some ⟨header c ++ weightData c w, layout c w 128 (exportOrder c)⟩ else none := convertMoe_eq c w

theorem drop_header : (header c ++ weightData c w).drop 128 = weightData c w := List.drop_left' (length_header c)

theorem moeConfigRead_file (hp : packable c) :
    moeConfigRead ((header c ++ weightData c w).drop 64) ((header c ++ weightData c w).length - 64) 0 =
      if headerOk c then some (c.moeConfig, 48) else none := by
  have hlen64 : (padTo64 ((headerWords c).flatMap le32)).length = 64 := by simp [headerWords, alignUp]
  have hsize : 48 ≤ (header c ++ weightData c w).length - 64 := by rw [List.length_append, length_header]; omega
  have hdrop : (header c ++ weightData c w).drop 64 =
      (moeWords c).flatMap le32 ++ (List.replicate ((64 - ((moeWords c).flatMap le32).length % 64) % 64) 0 ++
        weightData c w) := by
    unfold header
    rw [List.append_assoc, List.drop_left' hlen64]
    unfold padTo64
    rw [List.append_assoc]
  rw [hdrop, moeConfigRead_header hp _ hsize]

end

/-! ## Decoding a matrix -/

/-- The kernel finds the rows of a flattened matrix: they are whole bytes, or there is but one. -/
def RowsOk (rows cols : Nat) : Prop := rows = 0 ∨ (cols < 2 ^ 31 ∧ (rows = 1 ∨ cols % 4 = 0))

theorem unpackByte_mod (byte : UInt8) (k : Nat) : unpackByte byte k = unpackByte byte (k % 4) := by
  unfold unpackByte; rw [Nat.mod_mod]

/-- The four values of a byte. -/
theorem unpackByte_enc (a b c d : Trit) :
    let byte := a.enc ||| (b.enc <<< 2) ||| (c.enc <<< 4) ||| (d.enc <<< 6)
    unpackByte byte 0 = a.val ∧ unpackByte byte 1 = b.val ∧ unpackByte byte 2 = c.val ∧ unpackByte byte 3 = d.val := by
  cases a <;> cases b <;> cases c <;> cases d <;> decide

/-- Unpacking gives back the packed value; the padding unpacks to `-1`. -/
theorem unpackByte_packByte (n : Nat) (f : Nat → Trit) (k : Nat) :
    unpackByte (packByte n (fun k => (f k).enc) (k / 4)) k = (if k < n then f k else .neg).val := by
  have hpad : ∀ k, (if k < n then (f k).enc else 0) = (if k < n then f k else .neg).enc := by
    intro k; split <;> rfl
  unfold packByte
  simp only [hpad]
  rw [unpackByte_mod]
  obtain ⟨h0, h1, h2, h3⟩ := unpackByte_enc (if 4 * (k / 4) < n then f (4 * (k / 4)) else .neg)
    (if 4 * (k / 4) + 1 < n then f (4 * (k / 4) + 1) else .neg)
    (if 4 * (k / 4) + 2 < n then f (4 * (k / 4) + 2) else .neg)
    (if 4 * (k / 4) + 3 < n then f (4 * (k / 4) + 3) else .neg)
  have hk : k % 4 = 0 ∨ k % 4 = 1 ∨ k % 4 = 2 ∨ k % 4 = 3 := by omega
  rcases hk with hk | hk | hk | hk
  · have he : 4 * (k / 4) = k := by omega
    rw [hk, h0, he]
  · have he : 4 * (k / 4) + 1 = k := by omega
    rw [hk, h1, he]
  · have he : 4 * (k / 4) + 2 = k := by omega
    rw [hk, h2, he]
  · have he : 4 * (k / 4) + 3 = k := by omega
    rw [hk, h3, he]

theorem byteAt_packTernary {t : TensorData} {rows cols b : Nat} (h : b < packedLen (rows * cols)) :
    byteAt (packTernary t rows cols) b = packByte (rows * cols) (fun k => (t.q (k / cols) (k % cols)).enc) b := by
  unfold byteAt packTernary
  rw [List.getElem?_map, List.getElem?_range h]
  rfl

section

variable {c : HfConfig} {w : Weights} {n : TensorName} {rows cols : Nat}

/-- What the kernel decodes, in terms of the flattened matrix: the value at `4 * b + j % 4`, for the
byte `b` that it reads. -/
theorem ternaryEntry_eq (hb : shape c n = .ternary rows cols) (hc : cols < 2 ^ 31) (pre post : List UInt8) {i j : Nat}
    (hlt : i * packedLen cols + j / 4 < alignUp (packedLen (rows * cols))) :
    ternaryEntry (pre ++ blockBytes c w n ++ post) pre.length cols i j =
      some (if 4 * (i * packedLen cols + j / 4) + j % 4 < rows * cols then
        (w n).q ((4 * (i * packedLen cols + j / 4) + j % 4) / cols) ((4 * (i * packedLen cols + j / 4) + j % 4) % cols)
        else .neg).val := by
  have hblk := length_blockBytes_ternary c w hb
  have hlen : (pre ++ blockBytes c w n ++ post).length = pre.length + (blockBytes c w n).length + post.length := by
    rw [List.length_append, List.length_append]
  generalize hbe : i * packedLen cols + j / 4 = b at hlt ⊢
  have hbyte : byteAt (pre ++ blockBytes c w n ++ post) (pre.length + b) = byteAt (padTo64 (packTernary (w n) rows cols)) b := by
    rw [List.append_assoc, byteAt_append_right]
    unfold blockBytes
    rw [hb, List.append_assoc, byteAt_append_left _ (by simpa using hlt)]
  unfold ternaryEntry
  dsimp only
  rw [packedBytes_of_lt hc, Nat.add_assoc, hbe, if_pos ⟨hc, by omega⟩, hbyte]
  congr 1
  have hdiv : (4 * b + j % 4) / 4 = b := by omega
  have hmod : (4 * b + j % 4) % 4 = j % 4 := by omega
  rcases Nat.lt_or_ge b (packedLen (rows * cols)) with hin | hout
  · have hp := unpackByte_packByte (rows * cols) (fun k => (w n).q (k / cols) (k % cols)) (4 * b + j % 4)
    rw [hdiv, unpackByte_mod, hmod, ← unpackByte_mod] at hp
    rw [← hp]
    unfold padTo64
    rw [byteAt_append_left _ (by simpa using hin), byteAt_packTernary hin]
  · have hge : rows * cols ≤ 4 * b := by unfold packedLen at hout; omega
    rw [byteAt_padTo64_ge (by simpa using hout), if_neg (by omega)]
    rw [unpackByte_mod]
    have hj : j % 4 = 0 ∨ j % 4 = 1 ∨ j % 4 = 2 ∨ j % 4 = 3 := by omega
    rcases hj with hj | hj | hj | hj <;> rw [hj] <;> decide

/-- With whole bytes in a row the kernel decodes the exported values. -/
theorem ternaryEntry_rows (hb : shape c n = .ternary rows cols) (hr : RowsOk rows cols) (pre post : List UInt8) {i j : Nat}
    (hi : i < rows) (hj : j < cols) :
    ternaryEntry (pre ++ blockBytes c w n ++ post) pre.length cols i j = some ((w n).q i j).val := by
  obtain ⟨hc, hr⟩ : cols < 2 ^ 31 ∧ (rows = 1 ∨ cols % 4 = 0) := hr.resolve_left (by omega)
  have hflat : i * cols + j < rows * cols := by
    calc i * cols + j < i * cols + cols := Nat.add_lt_add_left hj _
      _ = (i + 1) * cols := (Nat.succ_mul i cols).symm
      _ ≤ rows * cols := Nat.mul_le_mul_right _ hi
  have hidx : 4 * (i * packedLen cols + j / 4) + j % 4 = i * cols + j := by
    rcases hr with rfl | hr
    · obtain rfl : i = 0 := by omega
      omega
    · have h4 : cols = 4 * packedLen cols := by unfold packedLen; omega
      have hm : i * cols = 4 * (i * packedLen cols) := by
        conv_lhs => rw [h4]
        ring
      omega
  have hpl : i * packedLen cols + j / 4 < packedLen (rows * cols) := by
    have : i * packedLen cols + j / 4 = (i * cols + j) / 4 := by omega
    rw [this]
    unfold packedLen
    omega
  have hdiv : (i * cols + j) / cols = i := by
    rw [Nat.add_comm, Nat.add_mul_div_right _ _ (by omega), Nat.div_eq_of_lt hj, Nat.zero_add]
  have hmod : (i * cols + j) % cols = j := by rw [Nat.add_comm, Nat.add_mul_mod_self_right, Nat.mod_eq_of_lt hj]
  rw [ternaryEntry_eq hb hc pre post (Nat.lt_of_lt_of_le hpl (le_alignUp _)), hidx, if_pos hflat, hdiv, hmod]

/-- Otherwise the second row is not found: the kernel starts it at a byte, the exporter within. -/
theorem ternaryEntry_second (hb : shape c n = .ternary rows cols) (hr : 2 ≤ rows) (hc : cols < 2 ^ 31)
    (hm : cols % 4 ≠ 0) (hq : ∀ i j, (w n).q i j = if i = 1 ∧ j = 0 then .pos else .neg) (pre post : List UInt8) :
    ternaryEntry (pre ++ blockBytes c w n ++ post) pre.length cols 1 0 = some (-1) := by
  have htotal : 2 * cols ≤ rows * cols := Nat.mul_le_mul_right _ hr
  have hlt : 1 * packedLen cols + 0 / 4 < alignUp (packedLen (rows * cols)) := by
    unfold alignUp packedLen
    omega
  rw [ternaryEntry_eq hb hc pre post hlt]
  have hidx : 4 * (1 * packedLen cols + 0 / 4) + 0 % 4 = 4 * packedLen cols := by omega
  rw [hidx]
  split
  · rw [hq, if_neg]
    · rfl
    · rintro ⟨h1, h2⟩
      have hdm := Nat.div_add_mod (4 * packedLen cols) cols
      rw [h1, h2] at hdm
      unfold packedLen at hdm
      omega
  · rfl

end

end BitForge.Format
