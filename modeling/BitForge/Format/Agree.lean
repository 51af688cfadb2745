/-
When exporter and loader of the ternary MoE format agree: exactly for the configurations whose
header is accepted, whose matrices of the regular section fill whole 64-byte units (there the
loader does not align before it copies the scale), and whose rows are whole bytes (there the
kernel takes the rows one after the other, the exporter the flattened matrix).
-/
import BitForge.Format.Decode

namespace BitForge.Format

open BitForge.Lib

/-- A command of the loader fits the tensor that the exporter has written. -/
def Fits : Block → Cmd → Prop
  | .plain n, .mapAlign bytes => bytes = n
  | .ternary rows cols, .mapCopy bytes => bytes = alignUp (packedLen (rows * cols)) ∧ RowsOk rows cols
  | .ternary rows cols, .mapAlignCopy bytes => alignUp bytes = alignUp (packedLen (rows * cols)) ∧ RowsOk rows cols
  | _, _ => False

instance (rows cols : Nat) : Decidable (RowsOk rows cols) := by unfold RowsOk; infer_instance

theorem Fits.sync {b : Block} {cmd : Cmd} (h : Fits b cmd) : Sync b cmd := by
  cases b <;> cases cmd <;> first | exact h | exact h.1

theorem Fits.rows {rows cols : Nat} {cmd : Cmd} (h : Fits (.ternary rows cols) cmd) : RowsOk rows cols := by
  cases cmd <;> first | exact h.2 | exact absurd h id

/-- The condition under which exporter and loader agree. -/
structure Compatible (c : HfConfig) : Prop where
  packable : packable c
  header : headerOk c
  ints : intsDefined c.config c.moeConfig
  fits : ∀ p ∈ c.cmds, Fits (shape c p.1) p.2

/-- Exporter and loader agree on every checkpoint of the configuration: the file is written and
read, the pointers and scales of the loader are the offsets and scales of the exporter, and the
kernel decodes the exported values. -/
def Agreement (c : HfConfig) : Prop :=
  ∀ w : Weights, ∃ f mc off mapped, convertMoe c w = some f ∧
    moeConfigRead (f.bytes.drop 64) (f.bytes.length - 64) 0 = some (mc, off) ∧
    weightsMap c.config mc (f.bytes.drop 128) = some mapped ∧
    mapped.map (fun m => (⟨m.name, m.ptr + 128, m.scale⟩ : Written)) = f.written ∧
    ∀ m ∈ mapped, ∀ rows cols, shape c m.name = .ternary rows cols → ∀ i < rows, ∀ j < cols,
      ternaryEntry (f.bytes.drop 128) m.ptr cols i j = some ((w m.name).q i j).val

/-! ## Agreement from the condition -/

theorem agreement_of_compatible {c : HfConfig} (h : Compatible c) : Agreement c := by
  intro w
  have hfile := convertMoe_file c w
  rw [if_pos h.packable] at hfile
  have hrun := runCmds_sync c w c.cmds [] [] rfl fun p hp => (h.fits p hp).sync
  rw [cmds_names, List.append_nil, List.nil_append] at hrun
  refine ⟨_, c.moeConfig, 48, pointers c w 0 (exportOrder c), hfile, ?_, ?_, ?_, ?_⟩
  · rw [moeConfigRead_file c w h.packable, if_pos h.header]
  · rw [drop_header]
    unfold weightsMap
    rw [if_pos h.ints]
    exact congrArg (Option.map Prod.fst) hrun
  · exact pointers_layout c w _ 0
  · intro m hm rows cols hb i hi j hj
    obtain ⟨as, bs, horder, hptr⟩ := mem_pointers c w hm
    have hname : m.name ∈ c.cmds.map Prod.fst := by rw [cmds_names, horder]; simp
    obtain ⟨⟨_, cmd⟩, hcmd, rfl⟩ := List.mem_map.1 hname
    have hfit := h.fits _ hcmd
    rw [hb] at hfit
    have hdata : weightData c w = as.flatMap (blockBytes c w) ++ blockBytes c w m.name ++
        bs.flatMap (blockBytes c w) := by
      unfold weightData
      rw [horder, List.flatMap_append, List.flatMap_cons, List.append_assoc]
    rw [drop_header, hptr, hdata, Nat.zero_add]
    exact ternaryEntry_rows hb hfit.rows _ _ hi hj

/-! ## The condition from agreement -/

/-- What an agreement says about one checkpoint. -/
theorem Agreement.run {c : HfConfig} (h : Agreement c) (w : Weights) :
    packable c ∧ headerOk c ∧ intsDefined c.config c.moeConfig ∧
      (∃ off, runCmds (weightData c w) 0 c.cmds = some (pointers c w 0 (exportOrder c), off)) ∧
      ∀ m ∈ pointers c w 0 (exportOrder c), ∀ rows cols, shape c m.name = .ternary rows cols → ∀ i < rows, ∀ j < cols,
        ternaryEntry (weightData c w) m.ptr cols i j = some ((w m.name).q i j).val := by
  obtain ⟨f, mc, off, mapped, hf, hmc, hmap, hptr, hdec⟩ := h w
  rw [convertMoe_file] at hf
  split_ifs at hf with hp
  cases hf
  dsimp only at hmc hmap hptr hdec
  rw [moeConfigRead_file c w hp] at hmc
  split_ifs at hmc with hh
  cases hmc
  rw [drop_header] at hmap hdec
  unfold weightsMap at hmap
  split_ifs at hmap with hints
  obtain ⟨⟨ms, e⟩, hrun, rfl⟩ := Option.map_eq_some_iff.1 hmap
  have hms : ms = pointers c w 0 (exportOrder c) := by
    have hinj : Function.Injective fun m : Mapped => (⟨m.name, m.ptr + 128, m.scale⟩ : Written) := by
      rintro ⟨n, p, s⟩ ⟨n', p', s'⟩ he
      simp only [Written.mk.injEq, Nat.add_right_cancel_iff] at he
      obtain ⟨rfl, rfl, rfl⟩ := he
      rfl
    refine List.map_injective_iff.2 hinj ?_
    rw [pointers_layout]
    exact hptr
  subst hms
  exact ⟨hp, hh, hints, ⟨e, hrun⟩, hdec⟩

/-- What is shown of every element whose predecessors have it, holds of all. -/
theorem forall_mem_of_prefix {α : Type} {P : α → Prop} (l : List α)
    (h : ∀ as x bs, l = as ++ x :: bs → (∀ a ∈ as, P a) → P x) : ∀ x ∈ l, P x := by
  have hall : ∀ as bs, l = as ++ bs → ∀ a ∈ as, P a := by
    intro as
    induction as using List.reverseRecOn with
    | nil => intro bs _ a ha; cases ha
    | append_singleton as x ih =>
      intro bs hl a ha
      rw [List.append_assoc] at hl
      have hpre := ih _ hl
      rcases List.mem_append.1 ha with ha | ha
      · exact hpre a ha
      · cases List.mem_singleton.1 ha
        exact h as x bs hl hpre
  exact hall l [] (List.append_nil l).symm

/-- A tensor of zeros with the scale 2. -/
def nullData : TensorData := ⟨fun _ => 0, 0x40000000, fun _ _ => .neg⟩

/-- The checkpoint whose tensors are `nullData`, but for the scale 1 of one of them. -/
def markScale (t : TensorName) : Weights := fun n => if n = t then { nullData with scale := 0x3F800000 } else nullData

/-- The checkpoint whose tensors are `nullData`, but for one value in the second row of one. -/
def markRow (t : TensorName) : Weights := fun n =>
  if n = t then { nullData with q := fun i j => if i = 1 ∧ j = 0 then .pos else .neg } else nullData

theorem byteAt_flatMap {f : TensorName → List UInt8} {x : UInt8} (hx : x ≠ 0) :
    ∀ {ns : List TensorName}, (∀ n ∈ ns, ∀ i, byteAt (f n) i ≠ x) → ∀ i, byteAt (ns.flatMap f) i ≠ x
  | [], _, i => by
    rw [List.flatMap_nil, byteAt_of_ge (Nat.zero_le i)]
    exact hx.symm
  | n :: ns, h, i => by
    rw [List.flatMap_cons]
    rcases Nat.lt_or_ge i (f n).length with hi | hi
    · rw [byteAt_append_left _ hi]
      exact h n (List.mem_cons_self ..) i
    · obtain ⟨j, rfl⟩ := Nat.exists_eq_add_of_le hi
      rw [byteAt_append_right]
      exact byteAt_flatMap hx (fun m hm => h m (List.mem_cons_of_mem _ hm)) j

theorem byteAt_zeros {p : List UInt8} (h : ∀ b ∈ p, b = 0) (i : Nat) : byteAt (padTo64 p) i = 0 := by
  rcases Nat.lt_or_ge i p.length with hi | hi
  · unfold padTo64
    rw [byteAt_append_left _ hi]
    unfold byteAt
    rw [List.getElem?_eq_getElem hi]
    exact h _ (List.getElem_mem hi)
  · exact byteAt_padTo64_ge hi

theorem packTernary_neg {t : TensorData} (hq : ∀ i j, t.q i j = .neg) (rows cols : Nat) :
    ∀ b ∈ packTernary t rows cols, b = 0 := by
  intro b hb
  unfold packTernary at hb
  obtain ⟨k, -, rfl⟩ := List.mem_map.1 hb
  have hpad : ∀ m, (if m < rows * cols then (t.q (m / cols) (m % cols)).enc else 0) = 0 := by
    intro m
    rw [hq]
    split <;> rfl
  unfold packByte
  simp only [hpad]
  decide

/-- The bytes of a block without values: zeros, and then its scale. -/
theorem byteAt_block_neg {c : HfConfig} {w : Weights} {n : TensorName} (hraw : ∀ i, (w n).raw i = 0)
    (hq : ∀ i j, (w n).q i j = .neg) (i : Nat) (h : byteAt (blockBytes c w n) i ≠ 0) :
    ∃ rows cols k, shape c n = .ternary rows cols ∧ i = alignUp (packedLen (rows * cols)) + k ∧ k < 4 ∧
      byteAt (blockBytes c w n) i = byteAt (le32 (w n).scale.toNat) k := by
  unfold blockBytes at h ⊢
  split at h
  · refine absurd (byteAt_zeros (fun b hb => ?_) i) h
    obtain ⟨k, -, rfl⟩ := List.mem_map.1 hb
    exact hraw k
  · rename_i rows cols hb
    have hlen : (padTo64 (packTernary (w n) rows cols)).length = alignUp (packedLen (rows * cols)) := by simp
    rcases Nat.lt_or_ge i (alignUp (packedLen (rows * cols))) with hi | hi
    · rw [byteAt_append_left _ (by omega)] at h
      exact absurd (byteAt_zeros (packTernary_neg hq rows cols) i) h
    · obtain ⟨k, rfl⟩ := Nat.exists_eq_add_of_le hi
      rw [← hlen, byteAt_append_right] at h
      have hk : k < 4 := by
        by_contra hk
        exact h (byteAt_padTo64_ge (by simpa using hk))
      refine ⟨rows, cols, k, hb, rfl, hk, ?_⟩
      rw [← hlen, byteAt_append_right]
      unfold padTo64
      exact byteAt_append_left _ hk

theorem byteAt_le32_one {k : Nat} (hk : k < 4) (h : byteAt (le32 (0x3F800000 : UInt32).toNat) k = 0x3f) : k = 3 := by
  have hcases : k = 0 ∨ k = 1 ∨ k = 2 ∨ k = 3 := by omega
  rcases hcases with rfl | rfl | rfl | rfl
  · exact absurd h (by decide)
  · exact absurd h (by decide)
  · exact absurd h (by decide)
  · rfl

theorem byteAt_le32_two {k : Nat} (hk : k < 4) : byteAt (le32 (0x40000000 : UInt32).toNat) k ≠ 0x3f := by
  have hcases : k = 0 ∨ k = 1 ∨ k = 2 ∨ k = 3 := by omega
  rcases hcases with rfl | rfl | rfl | rfl <;> decide

/-- Only the marked scale reads as 1: a word 1 at `i`, from the start of its block on, is it. -/
theorem scale_unique {c : HfConfig} {t : TensorName} {rows cols i : Nat} {bs : List TensorName}
    (hb : shape c t = .ternary rows cols) (hbs : t ∉ bs)
    (h : rd32 (blockBytes c (markScale t) t ++ bs.flatMap (blockBytes c (markScale t))) i = 0x3F800000) :
    i = alignUp (packedLen (rows * cols)) := by
  have hbyte : byteAt (blockBytes c (markScale t) t ++ bs.flatMap (blockBytes c (markScale t))) (i + 3) = 0x3f := by
    unfold rd32 at h
    have h0 := (byteAt (blockBytes c (markScale t) t ++ bs.flatMap (blockBytes c (markScale t))) i).toNat_lt
    have h1 := (byteAt (blockBytes c (markScale t) t ++ bs.flatMap (blockBytes c (markScale t))) (i + 1)).toNat_lt
    have h2 := (byteAt (blockBytes c (markScale t) t ++ bs.flatMap (blockBytes c (markScale t))) (i + 2)).toNat_lt
    have h3 := (byteAt (blockBytes c (markScale t) t ++ bs.flatMap (blockBytes c (markScale t))) (i + 3)).toNat_lt
    apply UInt8.toNat_inj.1
    show _ = 63
    omega
  have hraw : ∀ n i, (markScale t n).raw i = 0 := by intro n i; unfold markScale; split <;> rfl
  have hq : ∀ n i j, (markScale t n).q i j = .neg := by intro n i j; unfold markScale; split <;> rfl
  rcases Nat.lt_or_ge (i + 3) (blockBytes c (markScale t) t).length with hi | hi
  · rw [byteAt_append_left _ hi] at hbyte
    obtain ⟨r, k, j, hb', hij, hj, hval⟩ := byteAt_block_neg (c := c) (hraw t) (hq t) (i + 3) (by rw [hbyte]; decide)
    rw [hb] at hb'
    cases hb'
    have hscale : (markScale t t).scale = 0x3F800000 := by unfold markScale; rw [if_pos rfl]
    rw [hbyte, hscale] at hval
    have := byteAt_le32_one hj hval.symm
    omega
  · obtain ⟨j, hj⟩ := Nat.exists_eq_add_of_le hi
    rw [hj, byteAt_append_right] at hbyte
    refine absurd hbyte (byteAt_flatMap (by decide) (fun n hn k hval => ?_) j)
    have hnt : n ≠ t := fun h => hbs (h ▸ hn)
    obtain ⟨r, l, m, -, -, hm, hval'⟩ := byteAt_block_neg (c := c) (hraw n) (hq n) k (by rw [hval]; decide)
    have hscale : (markScale t n).scale = 0x40000000 := by unfold markScale; rw [if_neg hnt]; rfl
    rw [hval, hscale] at hval'
    exact byteAt_le32_two hm hval'.symm

/-- The command that a tensor gets, up to its byte count. -/
def Kind : Block → Cmd → Prop
  | .plain n, .mapAlign bytes => bytes = n
  | .ternary _ _, .mapCopy _ | .ternary _ _, .mapAlignCopy _ => True
  | _, _ => False

theorem cmds_kind (c : HfConfig) : ∀ p ∈ c.cmds, Kind (shape c p.1) p.2 := by
  have hlayer : ∀ l, ∀ p ∈ layerCmds c.config c.moeConfig l, Kind (shape c p.1) p.2 := by
    intro l p hp
    unfold layerCmds at hp
    rcases List.mem_append.1 hp with hp | hp
    · rcases List.mem_cons.1 hp with rfl | hp
      · rfl
      rcases List.mem_cons.1 hp with rfl | hp
      · rfl
      split at hp <;> simp only [List.mem_cons, List.not_mem_nil, or_false] at hp <;>
        rcases hp with rfl | rfl | rfl <;> trivial
    · rcases List.mem_cons.1 hp with rfl | hp
      · trivial
      split at hp
      · cases hp
      · simp only [List.mem_cons, List.not_mem_nil, or_false] at hp
        rcases hp with rfl | rfl | rfl <;> trivial
  have hmoe : ∀ l, ∀ p ∈ moeLayerCmds c.config c.moeConfig l, Kind (shape c p.1) p.2 := by
    intro l p hp
    unfold moeLayerCmds at hp
    split at hp
    · cases hp
    · rcases List.mem_append.1 hp with hp | hp
      · rcases List.mem_cons.1 hp with rfl | hp
        · trivial
        · obtain ⟨e, -, he⟩ := List.mem_flatMap.1 hp
          simp only [List.mem_cons, List.not_mem_nil, or_false] at he
          rcases he with rfl | rfl | rfl <;> trivial
      · split at hp
        · simp only [List.mem_cons, List.not_mem_nil, or_false] at hp
          rcases hp with rfl | rfl | rfl <;> trivial
        · cases hp
  intro p hp
  unfold HfConfig.cmds regularCmds moeCmds at hp
  rcases List.mem_append.1 hp with hp | hp
  · rcases List.mem_append.1 hp with hp | hp
    · rcases List.mem_cons.1 hp with rfl | hp
      · rfl
      · obtain ⟨l, -, hl⟩ := List.mem_flatMap.1 hp
        exact hlayer l p hl
    · cases List.mem_singleton.1 hp
      rfl
  · split at hp
    · obtain ⟨l, -, hl⟩ := List.mem_flatMap.1 hp
      exact hmoe l p hl
    · cases hp

/-- The first command whose pointer or scale would be wrong does not exist. -/
theorem Agreement.sync {c : HfConfig} (h : Agreement c) : ∀ p ∈ c.cmds, Sync (shape c p.1) p.2 := by
  refine forall_mem_of_prefix _ ?_
  rintro as ⟨t, cmd⟩ bs hcmds has
  have hkind := cmds_kind c (t, cmd) (by rw [hcmds]; simp)
  obtain ⟨-, -, -, ⟨off, hrun⟩, -⟩ := h.run (markScale t)
  have horder : exportOrder c = as.map Prod.fst ++ t :: bs.map Prod.fst := by rw [← cmds_names, hcmds]; simp
  have hbs : t ∉ bs.map Prod.fst := by
    have hnd := exportOrder_nodup c
    rw [horder] at hnd
    exact (List.nodup_cons.1 (List.nodup_append.1 hnd).2.1).1
  generalize hpre : (as.map Prod.fst).flatMap (blockBytes c (markScale t)) = pre
  have hdata : weightData c (markScale t) =
      pre ++ (blockBytes c (markScale t) t ++ (bs.map Prod.fst).flatMap (blockBytes c (markScale t))) := by
    unfold weightData
    rw [horder, List.flatMap_append, List.flatMap_cons, hpre]
  have hmod : pre.length % 64 = 0 := by
    have hall : ∀ ns : List TensorName, (ns.flatMap (blockBytes c (markScale t))).length % 64 = 0 := by
      intro ns
      induction ns with
      | nil => rfl
      | cons n ns ih => rw [List.flatMap_cons, List.length_append, Nat.add_mod, blockBytes_mod, ih]
    rw [← hpre]
    exact hall _
  have hprefix := runCmds_sync c (markScale t) as []
    (blockBytes c (markScale t) t ++ (bs.map Prod.fst).flatMap (blockBytes c (markScale t))) rfl has
  rw [List.nil_append, hpre, ← hdata, List.length_nil, Nat.zero_add] at hprefix
  rw [hcmds, runCmds_append, hprefix, Option.bind_some, horder, pointers_append, hpre] at hrun
  obtain ⟨⟨ms, e⟩, hrest, heq⟩ := Option.map_eq_some_iff.1 hrun
  simp only [Prod.mk.injEq] at heq
  have hms := List.append_cancel_left heq.1
  simp only [runCmds, Option.bind_eq_bind] at hrest
  obtain ⟨⟨m, p⟩, hstep, hrest⟩ := Option.bind_eq_some_iff.1 hrest
  obtain ⟨⟨ms', p'⟩, -, hcons⟩ := Option.bind_eq_some_iff.1 hrest
  cases hcons
  simp only [pointers, List.cons.injEq] at hms
  have hm := hms.1
  subst hm
  cases hb : shape c t with
  | plain n =>
    rw [hb] at hkind
    cases cmd with
    | mapAlign => exact hkind
    | mapCopy | mapAlignCopy => exact absurd hkind id
  | ternary rows cols =>
    have hscale : blockScale c (markScale t) t = some 0x3F800000 := by
      unfold blockScale markScale
      rw [hb, if_pos rfl]
      rfl
    rw [hscale] at hstep
    rw [hb] at hkind
    cases cmd with
    | mapAlign => exact absurd hkind id
    | mapCopy bytes =>
      simp only [runCmd, Option.bind_eq_bind] at hstep
      obtain ⟨p1, hp1, hstep1⟩ := Option.bind_eq_some_iff.1 hstep
      obtain ⟨⟨v, p2⟩, hp2, hret⟩ := Option.bind_eq_some_iff.1 hstep1
      simp only [Option.some.injEq, Prod.mk.injEq, Mapped.mk.injEq, true_and] at hret
      obtain ⟨rfl, -⟩ := mapPtr_some hp1
      obtain ⟨hv, -⟩ := copyValAlign_some hp2
      rw [hret.1.2, hdata, rd32_append_right] at hv
      exact scale_unique hb hbs hv.symm
    | mapAlignCopy bytes =>
      simp only [runCmd, Option.bind_eq_bind] at hstep
      obtain ⟨p1, hp1, hstep1⟩ := Option.bind_eq_some_iff.1 hstep
      obtain ⟨p3, hp3, hstep2⟩ := Option.bind_eq_some_iff.1 hstep1
      obtain ⟨⟨v, p2⟩, hp2, hret⟩ := Option.bind_eq_some_iff.1 hstep2
      simp only [Option.some.injEq, Prod.mk.injEq, Mapped.mk.injEq, true_and] at hret
      obtain ⟨rfl, -⟩ := mapPtr_some hp1
      obtain rfl := alignPtr_some hp3
      obtain ⟨hv, -⟩ := copyValAlign_some hp2
      rw [hret.1.2, alignUp_add hmod, hdata, rd32_append_right] at hv
      exact scale_unique hb hbs hv.symm

theorem Agreement.rows {c : HfConfig} (h : Agreement c) {n : TensorName} (hn : n ∈ exportOrder c) {rows cols : Nat}
    (hb : shape c n = .ternary rows cols) : RowsOk rows cols := by
  by_contra hbad
  unfold RowsOk at hbad
  obtain ⟨as, bs, horder⟩ := List.append_of_mem hn
  obtain ⟨-, -, -, -, hdec⟩ := h.run (markRow n)
  have hmem : (⟨n, (as.flatMap (blockBytes c (markRow n))).length, blockScale c (markRow n) n⟩ : Mapped) ∈
      pointers c (markRow n) 0 (exportOrder c) := by
    rw [horder, pointers_append]
    simp [pointers]
  have hentry := hdec _ hmem rows cols hb
  rcases Nat.lt_or_ge cols (2 ^ 31) with hc | hc
  · have hdata : weightData c (markRow n) = as.flatMap (blockBytes c (markRow n)) ++ blockBytes c (markRow n) n ++
        bs.flatMap (blockBytes c (markRow n)) := by
      unfold weightData
      rw [horder, List.flatMap_append, List.flatMap_cons, List.append_assoc]
    have hq : ∀ i j, (markRow n n).q i j = if i = 1 ∧ j = 0 then .pos else .neg := by
      intro i j; unfold markRow; rw [if_pos rfl]
    have h1 := hentry 1 (by omega) 0 (by omega)
    rw [hdata, hq] at h1
    dsimp only at h1
    rw [ternaryEntry_second hb (by omega) hc (by omega) hq] at h1
    simp [Trit.val] at h1
  · have h0 := hentry 0 (by omega) 0 (by omega)
    unfold ternaryEntry at h0
    dsimp only at h0
    rw [if_neg (by omega)] at h0
    cases h0

theorem compatible_of_agreement {c : HfConfig} (h : Agreement c) : Compatible c where
  packable := (h.run fun _ => nullData).1
  header := (h.run fun _ => nullData).2.1
  ints := (h.run fun _ => nullData).2.2.1
  fits p hp := by
    have hs := h.sync p hp
    have hn : p.1 ∈ exportOrder c := by rw [← cmds_names]; exact List.mem_map_of_mem hp
    cases hb : shape c p.1 with
    | plain n =>
      rw [hb] at hs
      cases hc : p.2 <;> rw [hc] at hs <;> exact hs
    | ternary rows cols =>
      have hr := h.rows hn hb
      rw [hb] at hs
      cases hc : p.2 <;> rw [hc] at hs <;> first | exact ⟨hs, hr⟩ | exact absurd hs id

/-- Exporter and loader agree on all checkpoints of a configuration exactly under the condition. -/
theorem agreement_iff (c : HfConfig) : Agreement c ↔ Compatible c :=
  ⟨compatible_of_agreement, agreement_of_compatible⟩

/-- A model with `dim = 8`: the 16 bytes of `wq` do not fill a 64-byte unit, so the loader takes
the padding after them for the scale. -/
def smallConfig : HfConfig :=
  { dim := 8, hiddenDim := 8, nLayers := 1, nHeads := 1, nKvHeads := 1, vocabSize := 4, maxPositionEmbeddings := 16,
    actType := 0, ropeTheta := 0x461C4000, nRoutedExperts := 2, topK := 1, expertHiddenDim := 8, firstKDense := 0,
    nSharedExperts := 0, kvLoraRank := 0, qkNopeHeadDim := 0, qkRopeHeadDim := 0, vHeadDim := 0 }

theorem smallConfig_disagrees : ¬ Agreement smallConfig := by
  intro h
  have hfit := (compatible_of_agreement h).fits (.wq 0, .mapCopy 16) (by decide)
  exact absurd hfit.1 (by decide)

end BitForge.Format
