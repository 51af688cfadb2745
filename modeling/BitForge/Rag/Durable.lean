/-
Durability of the vector database: a run of opens, stores and closes keeps the file at the header
and the records of the entries stored, as long as no I/O call fails. A store whose I/O fails has
already changed the memory, and a file whose first header is cut is never opened again; so the
runs without a failed call are exactly the durable ones.
-/
import BitForge.Rag.VectorDb

namespace BitForge.Rag

open BitForge.Lib

/-! ## Runs -/

inductive Op
  | open (header : IoOutcome)
  | store (embedding : Nat → UInt32) (text : List UInt8) (io : StoreIo)
  | autoSave (embedding : Option (Nat → UInt32)) (duplicate : Bool) (text : List UInt8) (io : StoreIo)
  | close

inductive Reply
  | done (e : TernaryError)
  | saved (result : Int)
deriving DecidableEq, Repr

/-- One call on the database of dimension `dim`. -/
def step (dim : Nat) (op : Op) (w : World) : Reply × World :=
  match op with
  | .open header => ((vectorDbOpen dim header w).map .done id)
  | .store embedding text io => (vectorDbStore embedding text io w).map .done id
  | .autoSave embedding duplicate text io => (autoSaveMemory embedding duplicate text io w).map .saved id
  | .close => (.done .ok, vectorDbClose w)

/-- The entry that a store which succeeds has stored. -/
def storedBy (dim : Nat) (op : Op) (r : Reply) : List Entry :=
  match op, r with
  | .store embedding text _, .done .ok => [newEntry dim embedding text]
  | .autoSave (some embedding) _ text _, .saved 0 => [newEntry dim embedding text]
  | _, _ => []

/-- A store that returns an error. -/
def storeFails (op : Op) (r : Reply) : Prop :=
  match op, r with
  | .store _ _ _, .done e => e ≠ .ok
  | .autoSave _ _ _ _, .saved n => n < 0
  | _, _ => False

/-- A run is durable after the entries `stored`: a store that fails leaves the entries in memory as
they are, and at the end the file opens with the entries stored. -/
def Durable (dim : Nat) : List Op → World → List Entry → Prop
  | [], w, stored => (vectorDbOpen dim .ok w).1 = .ok ∧ (vectorDbOpen dim .ok w).2.db.entries = stored
  | op :: ops, w, stored =>
    (storeFails op (step dim op w).1 → (step dim op w).2.db.entries = w.db.entries) ∧
      Durable dim ops (step dim op w).2 (stored ++ storedBy dim op (step dim op w).1)

def StoreIo.AllOk (io : StoreIo) : Prop :=
  io.seek = .ok ∧ io.embedding = .ok ∧ io.textLen = .ok ∧ io.text = .ok ∧ io.header = .ok

instance (io : StoreIo) : Decidable io.AllOk := by
  unfold StoreIo.AllOk; infer_instance

/-- A store in this state comes to its I/O calls. -/
def StoreWrites (w : World) : Prop := w.db.fp.isSome ∧ w.db.entries.length < vrdbMaxEntries

/-- No I/O call that the operation makes in this state fails. -/
def NoFault (op : Op) (w : World) : Prop :=
  match op with
  | .open header => w.disk = none → header = .ok
  | .store _ _ io => StoreWrites w → io.AllOk
  | .autoSave embedding duplicate _ io => embedding.isSome ∧ duplicate = false → StoreWrites w → io.AllOk
  | .close => True

/-- No I/O call of the run fails. -/
def NoFaults (dim : Nat) : List Op → World → Prop
  | [], _ => True
  | op :: ops, w => NoFault op w ∧ NoFaults dim ops (step dim op w).2

/-! ## The file of a list of entries -/

structure EntryOk (dim : Nat) (e : Entry) : Prop where
  embedding : e.embedding.length = dim
  text : e.text.length < vrdbMaxText
  noNul : ∀ b ∈ e.text, b ≠ 0

theorem newEntry_ok (dim : Nat) (embedding : Nat → UInt32) (text : List UInt8) : EntryOk dim (newEntry dim embedding text) where
  embedding := by simp [newEntry]
  text := by
    unfold newEntry
    rw [List.length_take]
    unfold vrdbMaxText
    omega
  noNul := by
    intro b hb
    have hmem : b ∈ cString text := List.mem_of_mem_take hb
    exact of_decide_eq_true (List.all_eq_true.1 List.all_takeWhile b hmem)

def headerBytes (numEntries dim : Nat) : List UInt8 := [vrdbMagic, vrdbVersion, numEntries, dim].flatMap le32

def record (e : Entry) : List UInt8 := (recordParts e).flatMap id

def fileBytes (dim : Nat) (es : List Entry) : List UInt8 := headerBytes es.length dim ++ es.flatMap record

@[simp] theorem length_headerBytes (numEntries dim : Nat) : (headerBytes numEntries dim).length = 16 := rfl

/-- The capacity of the arrays: it holds `n` entries and was reached by doubling. -/
structure CapacityOk (n capacity : Nat) : Prop where
  le : n ≤ capacity
  doubled : capacity = 0 ∨ ∃ k ≤ 10, capacity = 64 * 2 ^ k

theorem embeddingsReserve_ok {db : VectorDB} (h : CapacityOk db.entries.length db.capacity)
    (hlt : db.entries.length < vrdbMaxEntries) :
    ∃ capacity, embeddingsReserve db = some { db with capacity := capacity } ∧
      CapacityOk (db.entries.length + 1) capacity := by
  unfold embeddingsReserve
  by_cases hroom : db.entries.length < db.capacity
  · rw [if_pos hroom]
    exact ⟨db.capacity, rfl, hroom, h.doubled⟩
  · rw [if_neg hroom]
    have hle := h.le
    rcases h.doubled with hzero | ⟨k, hk, hcap⟩
    · rw [if_pos hzero]
      exact ⟨64, rfl, by omega, .inr ⟨0, by omega, rfl⟩⟩
    · have hpow : 64 * 2 ^ k * 2 = 64 * 2 ^ (k + 1) := by rw [Nat.pow_succ, Nat.mul_assoc]
      have hpos : 0 < 2 ^ k := Nat.two_pow_pos k
      have hk' : k < 10 := by
        rcases Nat.lt_or_ge k 10 with hlt' | hge
        · exact hlt'
        · obtain rfl : k = 10 := by omega
          unfold vrdbMaxEntries at hlt
          omega
      have hmax : 2 ^ (k + 1) ≤ 2 ^ 10 := Nat.pow_le_pow_right (by omega) (by omega)
      have hne : db.capacity ≠ 0 := by omega
      rw [if_neg hne, hcap, hpow, if_neg (by unfold vrdbMaxEntries; omega)]
      exact ⟨_, rfl, by omega, .inr ⟨k + 1, by omega, rfl⟩⟩

/-! ## Opening the file -/

theorem length_embeddingBytes (vs : List UInt32) : (vs.flatMap fun v => le32 v.toNat).length = 4 * vs.length := by
  induction vs with
  | nil => rfl
  | cons v vs ih => rw [List.flatMap_cons, List.length_append, ih, length_le32, List.length_cons]; omega

theorem readEmbedding (vs : List UInt32) :
    (List.range vs.length).map (fun j => UInt32.ofNat (rd32 (vs.flatMap fun v => le32 v.toNat) (4 * j))) = vs := by
  have hwords : vs.flatMap (fun v => le32 v.toNat) = (vs.map UInt32.toNat).flatMap le32 := by
    rw [List.flatMap_map]
  apply List.ext_getElem
  · simp
  · intro j h1 h2
    have hj : j < (vs.map UInt32.toNat).length := by rw [List.length_map]; exact h2
    rw [List.getElem_map, List.getElem_range, hwords, ← List.append_nil ((vs.map UInt32.toNat).flatMap le32),
      rd32_words _ _ hj, ← List.getElem_eq_getD (h := hj), List.getElem_map, Nat.mod_eq_of_lt (vs[j].toNat_lt)]
    exact UInt32.ofNat_toNat

theorem cString_of_noNul {t : List UInt8} (h : ∀ b ∈ t, b ≠ 0) : cString t = t := by
  unfold cString
  induction t with
  | nil => rfl
  | cons b t ih =>
    rw [List.takeWhile_cons, if_pos (decide_eq_true (h b (List.mem_cons_self ..))),
      ih fun c hc => h c (List.mem_cons_of_mem _ hc)]

/-- One record is read back. -/
theorem readEntry_record {dim : Nat} {e : Entry} (hok : EntryOk dim e) (pre post : List UInt8) :
    readEntry dim ⟨pre ++ (record e ++ post), pre.length⟩ =
      some (e, ⟨pre ++ (record e ++ post), (pre ++ record e).length⟩) := by
  obtain ⟨hemb, htext, hnul⟩ := hok
  -- the three parts of the record, each read with the bytes before it and after it
  let emb := e.embedding.flatMap fun v => le32 v.toNat
  let len := le32 (e.text.length + 1)
  let text := e.text ++ [0]
  have hrec : record e ++ post = emb ++ (len ++ (text ++ post)) := by
    simp [record, recordParts, emb, len, text]
  have hrecLen : (record e).length = emb.length + (len.length + text.length) := by
    simp [record, recordParts, emb, len, text]
  have hembLen : emb.length = 4 * dim := by rw [length_embeddingBytes, hemb]
  have htextLen : rd32 len 0 = text.length := by
    have hmod : (e.text.length + 1) % 2 ^ 32 = e.text.length + 1 := by
      apply Nat.mod_eq_of_lt
      unfold vrdbMaxText at htext
      omega
    rw [rd32_le32, hmod, List.length_append, List.length_singleton]
  have hcond : ¬ (text.length = 0 ∨ text.length > vrdbMaxText) := by
    rw [List.length_append, List.length_singleton]
    omega
  have hread1 : (File.mk (pre ++ (record e ++ post)) pre.length).read (4 * dim) = some (emb, ⟨_, _⟩) :=
    File.read_append (by rw [hrec]) rfl hembLen.symm
  have hread2 : (File.mk (pre ++ (record e ++ post)) (pre.length + 4 * dim)).read 4 = some (len, ⟨_, _⟩) :=
    File.read_append (by rw [hrec, ← List.append_assoc pre]) (by rw [List.length_append, hembLen]) rfl
  have hread3 : (File.mk (pre ++ (record e ++ post)) (pre.length + 4 * dim + 4)).read text.length = some (text, ⟨_, _⟩) :=
    File.read_append (by rw [hrec, ← List.append_assoc emb, ← List.append_assoc pre])
      (by rw [List.length_append, List.length_append, hembLen, Nat.add_assoc]; rfl) rfl
  have hentry : cString (text.take (text.length - 1)) = e.text := by
    rw [List.length_append, List.length_singleton, Nat.add_sub_cancel, List.take_left, cString_of_noNul hnul]
  have hend : pre.length + 4 * dim + 4 + text.length = (pre ++ record e).length := by
    have happend : (pre ++ record e).length = pre.length + (record e).length := List.length_append
    have hlenLen : len.length = 4 := rfl
    omega
  unfold readEntry
  rw [hread1, Option.bind_some]
  dsimp only
  rw [hread2, Option.bind_some]
  dsimp only
  rw [htextLen, if_neg hcond, hread3, Option.map_some]
  dsimp only
  rw [hentry, hend, ← hemb, readEmbedding]

theorem loadEntries_records : ∀ (es : List Entry) (pre : List UInt8) (db : VectorDB),
    (∀ e ∈ es, EntryOk db.embedDim e) → CapacityOk db.entries.length db.capacity →
      db.entries.length + es.length ≤ vrdbMaxEntries →
        ∃ capacity f, CapacityOk (db.entries ++ es).length capacity ∧
          loadEntries es.length ⟨pre ++ es.flatMap record, pre.length⟩ db =
            (.ok, { db with entries := db.entries ++ es, capacity := capacity }, f)
  | [], pre, db, _, hcap, _ => by
    rw [List.append_nil]
    exact ⟨db.capacity, _, hcap, rfl⟩
  | e :: es, pre, db, hok, hcap, hmax => by
    have hlt : db.entries.length < vrdbMaxEntries := by rw [List.length_cons] at hmax; omega
    obtain ⟨capacity, hreserve, hcap'⟩ := embeddingsReserve_ok hcap hlt
    have hread := readEntry_record (hok e (List.mem_cons_self ..)) pre (es.flatMap record)
    have hnext := loadEntries_records es (pre ++ record e)
      { db with entries := db.entries ++ [e], capacity := capacity }
      (fun e' he' => hok e' (List.mem_cons_of_mem _ he')) (by simpa using hcap')
      (by simp only [List.length_append, List.length_cons, List.length_nil] at hmax ⊢; omega)
    obtain ⟨capacity', f, hcap'', hload⟩ := hnext
    rw [List.append_assoc, List.append_assoc] at hload
    refine ⟨capacity', f, by simpa using hcap'', ?_⟩
    rw [List.length_cons, loadEntries, hreserve, List.flatMap_cons]
    dsimp only
    rw [hread]
    exact hload

theorem rd32_headerBytes (numEntries dim : Nat) :
    rd32 (headerBytes numEntries dim) 0 = vrdbMagic ∧ rd32 (headerBytes numEntries dim) 4 = vrdbVersion ∧
      rd32 (headerBytes numEntries dim) 8 = numEntries % 2 ^ 32 ∧ rd32 (headerBytes numEntries dim) 12 = dim % 2 ^ 32 := by
  have hword : ∀ i < 4, rd32 (headerBytes numEntries dim) (4 * i) =
      [vrdbMagic, vrdbVersion, numEntries, dim].getD i 0 % 2 ^ 32 := by
    intro i hi
    have := rd32_words [vrdbMagic, vrdbVersion, numEntries, dim] [] hi
    rwa [List.append_nil] at this
  have hmagic : vrdbMagic % 2 ^ 32 = vrdbMagic := Nat.mod_eq_of_lt (by unfold vrdbMagic; norm_num)
  have hversion : vrdbVersion % 2 ^ 32 = vrdbVersion := Nat.mod_eq_of_lt (by unfold vrdbVersion; norm_num)
  refine ⟨?_, ?_, ?_, ?_⟩
  · exact (hword 0 (by omega)).trans hmagic
  · exact (hword 1 (by omega)).trans hversion
  · exact hword 2 (by omega)
  · exact hword 3 (by omega)

/-- A file whose header is that of `numEntries` entries of dimension `dim` is read to the end. -/
theorem vectorDbOpen_header {dim numEntries : Nat} (hdim : 0 < dim) (hdim' : dim < 2 ^ 31) (hnum : numEntries < 2 ^ 31)
    {w : World} {bytes hdr : List UInt8} {f : File} (hdisk : w.disk = some bytes)
    (hread : (File.mk bytes 0).read 16 = some (hdr, f)) (hmagic : rd32 hdr 0 = vrdbMagic)
    (hversion : rd32 hdr 4 = vrdbVersion) (hentries : rd32 hdr 8 = numEntries % 2 ^ 32)
    (hembed : rd32 hdr 12 = dim % 2 ^ 32) (o : IoOutcome) {e : TernaryError} {db : VectorDB} {f' : File}
    (hload : loadEntries numEntries f (VectorDB.ofDim dim) = (e, db, f')) :
    vectorDbOpen dim o w = (e, ⟨some bytes, { db with fp := some f'.pos }⟩) := by
  have hne : dim ≠ 0 := by omega
  have hentries' : (toInt32 (rd32 hdr 8)).toNat = numEntries := by
    rw [hentries, toInt32_mod, toInt32_of_lt hnum, Int.toNat_natCast]
  have hembed' : toInt32 (rd32 hdr 12) = dim := by rw [hembed, toInt32_mod, toInt32_of_lt hdim']
  unfold vectorDbOpen
  rw [if_neg hne]
  split
  · next h => exact absurd (hdisk.symm.trans h) nofun
  · next b h =>
    obtain rfl : bytes = b := Option.some.inj (hdisk.symm.trans h)
    split
    · next h => exact absurd (hread.symm.trans h) nofun
    · next hdr' f₁ h =>
      obtain ⟨rfl, rfl⟩ : hdr = hdr' ∧ f = f₁ := Prod.mk.inj (Option.some.inj (hread.symm.trans h))
      rw [if_neg (not_not.2 hmagic), if_neg (not_not.2 hversion), if_neg (not_not.2 hembed'), hentries', hload, hdisk]

/-- A file of `es` opens with the entries `es`. -/
theorem vectorDbOpen_fileBytes {dim : Nat} (hdim : 0 < dim) (hdim' : dim < 2 ^ 31) {es : List Entry}
    (hok : ∀ e ∈ es, EntryOk dim e) (hmax : es.length ≤ vrdbMaxEntries) {w : World}
    (hdisk : w.disk = some (fileBytes dim es)) (o : IoOutcome) :
    ∃ capacity pos, CapacityOk es.length capacity ∧
      vectorDbOpen dim o w = (.ok, ⟨some (fileBytes dim es), ⟨es, dim, capacity, some pos⟩⟩) := by
  have hlt : es.length < 2 ^ 31 := by unfold vrdbMaxEntries at hmax; omega
  have hmax' : (VectorDB.ofDim dim).entries.length + es.length ≤ vrdbMaxEntries := by
    rw [VectorDB.ofDim, List.length_nil, Nat.zero_add]
    exact hmax
  obtain ⟨capacity, f, hcap, hload⟩ := loadEntries_records es (headerBytes es.length dim)
    (VectorDB.ofDim dim) hok ⟨Nat.zero_le _, .inl rfl⟩ hmax'
  obtain ⟨hmagic, hversion, hnum, hembed⟩ := rd32_headerBytes es.length dim
  have hread : (File.mk (fileBytes dim es) 0).read 16 = some (headerBytes es.length dim, ⟨fileBytes dim es, 0 + 16⟩) :=
    File.read_append (List.nil_append _).symm List.length_nil.symm (length_headerBytes ..).symm
  rw [length_headerBytes] at hload
  exact ⟨capacity, f.pos, hcap, vectorDbOpen_header hdim hdim' hlt hdisk hread hmagic hversion hnum hembed o hload⟩

/-! ## A store -/

theorem writeHeader_ok (f : File) (numEntries dim : Nat) :
    writeHeader f numEntries dim .ok = (f.rewind.put (headerBytes numEntries dim), .ok) := rfl

theorem writeHeader_fault (f : File) (numEntries dim : Nat) {o : IoOutcome} (h : o ≠ .ok) :
    (writeHeader f numEntries dim o).2 = .dbWrite := by
  cases o with
  | ok => exact absurd rfl h
  | fail written => rfl

theorem recordParts_zip (e : Entry) (a b c : IoOutcome) :
    ((recordParts e).zip [a, b, c]).flatMap Prod.fst = record e := by
  simp [recordParts, record]

theorem appendRecord_written {f f₁ f₂ : File} {e : Entry} {numEntries dim : Nat} {io : StoreIo}
    (hseek : f.seekEnd io.seek = (f₁, true))
    (hwrite : f₁.writeAll ((recordParts e).zip [io.embedding, io.textLen, io.text]) = (f₂, true)) :
    appendRecord f e numEntries dim io = writeHeader f₂ numEntries dim io.header := by
  simp only [appendRecord, hseek, hwrite]

/-- Without a fault the file of `es` becomes the file of `es` and the new entry. -/
theorem appendRecord_ok {dim : Nat} (es : List Entry) (e : Entry) (pos : Nat) {io : StoreIo} (h : io.AllOk) :
    ∃ pos', appendRecord ⟨fileBytes dim es, pos⟩ e (es.length + 1) dim io = (⟨fileBytes dim (es ++ [e]), pos'⟩, .ok) := by
  obtain ⟨hseek, hemb, hlen, htext, hheader⟩ := h
  have hparts : ∀ p ∈ (recordParts e).zip [io.embedding, io.textLen, io.text], p.2 = .ok := by
    rw [hemb, hlen, htext]
    simp [recordParts]
  have hseek' : (File.mk (fileBytes dim es) pos).seekEnd io.seek =
      (⟨fileBytes dim es, (fileBytes dim es).length⟩, true) := by
    rw [hseek, File.seekEnd]
  have hwrite := File.writeAll_ok _ (f := ⟨fileBytes dim es, (fileBytes dim es).length⟩) hparts rfl
  rw [recordParts_zip] at hwrite
  have hfile : fileBytes dim es ++ record e = headerBytes es.length dim ++ (es ++ [e]).flatMap record := by
    rw [fileBytes, List.flatMap_append, List.append_assoc, List.flatMap_singleton]
  have hput : (File.mk (fileBytes dim es ++ record e) 0).put (headerBytes (es.length + 1) dim) =
      ⟨fileBytes dim (es ++ [e]), (headerBytes (es.length + 1) dim).length⟩ := by
    rw [hfile, File.put_start (by rw [length_headerBytes, length_headerBytes]), fileBytes, List.length_append,
      List.length_singleton]
  refine ⟨(headerBytes (es.length + 1) dim).length, ?_⟩
  rw [appendRecord_written hseek' hwrite, hheader, writeHeader_ok]
  exact congrArg (·, TernaryError.ok) hput

theorem appendRecord_fault (f : File) (e : Entry) (numEntries dim : Nat) {io : StoreIo} (h : ¬ io.AllOk) :
    (appendRecord f e numEntries dim io).2 = .dbWrite := by
  unfold appendRecord
  split
  · rfl
  · next f₁ hseek =>
    split
    · rfl
    · next f₂ hwrite =>
      apply writeHeader_fault
      -- every call before the header has succeeded
      intro hheader
      have hseekOk : io.seek = .ok := by
        cases ho : io.seek with
        | ok => rfl
        | fail written => rw [ho] at hseek; cases hseek
      have hparts : ∀ p ∈ (recordParts e).zip [io.embedding, io.textLen, io.text], p.2 = .ok := by
        by_contra hfault
        have := File.writeAll_fault _ f₁ hfault
        rw [hwrite] at this
        cases this
      simp only [recordParts, List.zip_cons_cons, List.zip_nil_right, List.forall_mem_cons] at hparts
      exact h ⟨hseekOk, hparts.1, hparts.2.1, hparts.2.2.1, hheader⟩

/-- A record is appended without an error for just the outcomes that are all good. -/
theorem appendRecord_ok_iff (f : File) (e : Entry) (numEntries dim : Nat) (io : StoreIo) :
    (appendRecord f e numEntries dim io).2 = .ok ↔ io.AllOk := by
  constructor
  · intro hok
    by_contra hfault
    rw [appendRecord_fault f e numEntries dim hfault] at hok
    cases hok
  · rintro ⟨hseek, hemb, hlen, htext, hheader⟩
    have hparts : ∀ p ∈ (recordParts e).zip [io.embedding, io.textLen, io.text], p.2 = .ok := by
      rw [hemb, hlen, htext]
      simp [recordParts]
    have hseek' : f.seekEnd io.seek = (⟨f.bytes, f.bytes.length⟩, true) := by
      rw [hseek, File.seekEnd]
    have hwrite := File.writeAll_ok _ (f := ⟨f.bytes, f.bytes.length⟩) hparts rfl
    rw [appendRecord_written hseek' hwrite, hheader, writeHeader_ok]


/-- A store that comes to its I/O calls has its entry in memory, whatever becomes of them. -/
theorem vectorDbStore_writes {w : World} {pos : Nat} (hfp : w.db.fp = some pos)
    (hcap : CapacityOk w.db.entries.length w.db.capacity) (hlt : w.db.entries.length < vrdbMaxEntries)
    (embedding : Nat → UInt32) (text : List UInt8) (io : StoreIo) :
    ∃ capacity, CapacityOk (w.db.entries.length + 1) capacity ∧
      ∀ e, e = newEntry w.db.embedDim embedding text →
      ∀ f r, appendRecord ⟨w.disk.getD [], pos⟩ e (w.db.entries.length + 1) w.db.embedDim io = (f, r) →
        vectorDbStore embedding text io w =
          (r, ⟨some f.bytes, ⟨w.db.entries ++ [e], w.db.embedDim, capacity, some f.pos⟩⟩) := by
  obtain ⟨capacity, hreserve, hcap'⟩ := embeddingsReserve_ok hcap hlt
  refine ⟨capacity, hcap', ?_⟩
  rintro e rfl f r happend
  have hlength : (w.db.entries ++ [newEntry w.db.embedDim embedding text]).length = w.db.entries.length + 1 := by
    rw [List.length_append, List.length_singleton]
  unfold vectorDbStore
  split
  · next h => exact (Option.some_ne_none _ (hfp.symm.trans h)).elim
  · next pos' h =>
    obtain rfl : pos = pos' := Option.some.inj (hfp.symm.trans h)
    rw [if_neg (by omega)]
    split
    · next h => exact (Option.some_ne_none _ (hreserve.symm.trans h)).elim
    · next db h =>
      obtain rfl := Option.some.inj (hreserve.symm.trans h)
      simp only [hlength, happend]

/-! ## Runs without a fault -/

/-- The state after the entries `stored`: the file holds them, and so does the memory when the file
is open. -/
structure Clean (dim : Nat) (w : World) (stored : List Entry) : Prop where
  entryOk : ∀ e ∈ stored, EntryOk dim e
  le : stored.length ≤ vrdbMaxEntries
  disk : w.disk = some (fileBytes dim stored) ∨ w.disk = none ∧ stored = []
  db : w.db.fp.isSome → w.disk.isSome ∧ w.db.entries = stored ∧ w.db.embedDim = dim ∧
    CapacityOk stored.length w.db.capacity

/-- A file whose first header was cut; no store is left open on it. -/
structure Broken (w : World) : Prop where
  disk : ∃ bytes, w.disk = some bytes ∧ bytes.length < 16
  closed : w.db.fp = none

theorem clean_zero (dim : Nat) : Clean dim ⟨none, VectorDB.zero⟩ [] :=
  ⟨nofun, Nat.zero_le _, .inr ⟨rfl, rfl⟩, nofun⟩

section
variable {dim : Nat} (hdim : 0 < dim) (hdim' : dim < 2 ^ 31)

include hdim in
theorem vectorDbOpen_create (w : World) (hdisk : w.disk = none) :
    vectorDbOpen dim .ok w = (.ok, ⟨some (fileBytes dim []), { VectorDB.ofDim dim with fp := some 16 }⟩) := by
  have hne : dim ≠ 0 := by omega
  have hput : (File.mk [] 0).put (headerBytes 0 dim) = ⟨fileBytes dim [], 16⟩ := by
    rw [File.put_end rfl, List.nil_append, length_headerBytes, fileBytes, List.flatMap_nil, List.append_nil,
      List.length_nil]
  unfold vectorDbOpen
  rw [if_neg hne, hdisk, writeHeader_ok, File.rewind, hput]

include hdim in
theorem vectorDbOpen_fault (w : World) (hdisk : w.disk = none) (written : Nat) :
    Broken (vectorDbOpen dim (.fail written) w).2 := by
  have hne : dim ≠ 0 := by omega
  have hcut : (((File.mk [] 0).put ((headerBytes 0 dim).take (min written 15))).bytes).length < 16 := by
    rw [File.put_end rfl, List.nil_append, List.length_take]
    omega
  have hopen : vectorDbOpen dim (.fail written) w =
      (.dbWrite, ⟨some ((File.mk [] 0).put ((headerBytes 0 dim).take (min written 15))).bytes, VectorDB.ofDim dim⟩) := by
    unfold vectorDbOpen
    rw [if_neg hne, hdisk]
    rfl
  rw [hopen]
  exact ⟨⟨_, rfl, hcut⟩, rfl⟩

include hdim hdim' in
theorem vectorDbOpen_clean {w : World} {stored : List Entry} (h : Clean dim w stored) {o : IoOutcome}
    (hio : w.disk = none → o = .ok) :
    (vectorDbOpen dim o w).1 = .ok ∧ (vectorDbOpen dim o w).2.db.entries = stored ∧
      Clean dim (vectorDbOpen dim o w).2 stored := by
  rcases h.disk with hdisk | ⟨hdisk, rfl⟩
  · obtain ⟨capacity, pos, hcap, heq⟩ := vectorDbOpen_fileBytes hdim hdim' h.entryOk h.le hdisk o
    rw [heq]
    exact ⟨rfl, rfl, h.entryOk, h.le, .inl rfl, fun _ => ⟨rfl, rfl, rfl, hcap⟩⟩
  · rw [hio hdisk, vectorDbOpen_create hdim w hdisk]
    exact ⟨rfl, rfl, h.entryOk, h.le, .inl rfl, fun _ => ⟨rfl, rfl, rfl, Nat.le_refl _, .inl rfl⟩⟩

end

theorem vectorDbStore_idle {w : World} (h : ¬ StoreWrites w) (embedding : Nat → UInt32) (text : List UInt8) (io : StoreIo) :
    (vectorDbStore embedding text io w).1 ≠ .ok ∧ (vectorDbStore embedding text io w).2 = w := by
  unfold vectorDbStore
  split
  · exact ⟨fun hok => TernaryError.noConfusion hok, rfl⟩
  · next pos hfp =>
    have hfull : w.db.entries.length ≥ vrdbMaxEntries := by
      by_contra hlt
      exact h ⟨by rw [hfp]; rfl, by omega⟩
    rw [if_pos hfull]
    exact ⟨fun hok => TernaryError.noConfusion hok, rfl⟩

theorem vectorDbStore_clean {dim : Nat} {w : World} {stored : List Entry} (h : Clean dim w stored) (hw : StoreWrites w)
    (embedding : Nat → UInt32) (text : List UInt8) {io : StoreIo} (hio : io.AllOk) :
    (vectorDbStore embedding text io w).1 = .ok ∧
      Clean dim (vectorDbStore embedding text io w).2 (stored ++ [newEntry dim embedding text]) := by
  obtain ⟨hopen, hlt⟩ := hw
  obtain ⟨hdisk, rfl, rfl, hcap⟩ := h.db hopen
  obtain ⟨pos, hfp⟩ := Option.isSome_iff_exists.1 hopen
  have hfile : w.disk.getD [] = fileBytes w.db.embedDim w.db.entries := by
    rcases h.disk with hd | ⟨hd, -⟩
    · rw [hd, Option.getD_some]
    · rw [hd] at hdisk; cases hdisk
  obtain ⟨capacity, hcap', heq⟩ := vectorDbStore_writes hfp hcap hlt embedding text io
  obtain ⟨pos', happend⟩ := appendRecord_ok w.db.entries (newEntry w.db.embedDim embedding text) pos hio
  rw [← hfile] at happend
  have hlength : (w.db.entries ++ [newEntry w.db.embedDim embedding text]).length = w.db.entries.length + 1 := by
    rw [List.length_append, List.length_singleton]
  rw [heq _ rfl _ _ happend]
  refine ⟨rfl, ?_, by omega, .inl rfl, fun _ => ⟨rfl, rfl, rfl, by rw [hlength]; exact hcap'⟩⟩
  intro e he
  rcases List.mem_append.1 he with he | he
  · exact h.entryOk e he
  · rw [List.mem_singleton.1 he]
    exact newEntry_ok ..

theorem vectorDbStore_fault {dim : Nat} {w : World} {stored : List Entry} (h : Clean dim w stored) (hw : StoreWrites w)
    (embedding : Nat → UInt32) (text : List UInt8) {io : StoreIo} (hio : ¬ io.AllOk) :
    (vectorDbStore embedding text io w).1 ≠ .ok ∧ (vectorDbStore embedding text io w).2.db.entries ≠ w.db.entries := by
  obtain ⟨hopen, hlt⟩ := hw
  obtain ⟨-, rfl, -, hcap⟩ := h.db hopen
  obtain ⟨pos, hfp⟩ := Option.isSome_iff_exists.1 hopen
  obtain ⟨capacity, -, heq⟩ := vectorDbStore_writes hfp hcap hlt embedding text io
  have hfault := appendRecord_fault ⟨w.disk.getD [], pos⟩ (newEntry w.db.embedDim embedding text)
    (w.db.entries.length + 1) w.db.embedDim hio
  rcases happend : appendRecord ⟨w.disk.getD [], pos⟩ (newEntry w.db.embedDim embedding text)
    (w.db.entries.length + 1) w.db.embedDim io with ⟨f, r⟩
  rw [happend] at hfault
  obtain rfl : r = .dbWrite := hfault
  rw [heq _ rfl _ _ happend]
  exact ⟨nofun, by simp⟩

/-- `auto_save_memory` when it stores. -/
theorem autoSaveMemory_store {w : World} (hlt : w.db.entries.length < vrdbMaxEntries) (embedding : Nat → UInt32)
    (text : List UInt8) (io : StoreIo) :
    autoSaveMemory (some embedding) false text io w =
      (if (vectorDbStore embedding text io w).1 = .ok then 0 else -1, (vectorDbStore embedding text io w).2) := by
  unfold autoSaveMemory
  rw [if_neg (by omega)]
  rfl

theorem autoSaveMemory_skip {w : World} {embedding : Option (Nat → UInt32)} {duplicate : Bool}
    (h : ¬ (embedding.isSome ∧ duplicate = false ∧ w.db.entries.length < vrdbMaxEntries)) (text : List UInt8) (io : StoreIo) :
    (autoSaveMemory embedding duplicate text io w).1 ≠ 0 ∧ (autoSaveMemory embedding duplicate text io w).2 = w := by
  unfold autoSaveMemory
  split
  · exact ⟨(by decide : (-1 : Int) ≠ 0), rfl⟩
  · next hlt =>
    cases embedding with
    | none => exact ⟨(by decide : (-1 : Int) ≠ 0), rfl⟩
    | some embedding =>
      cases duplicate with
      | true => exact ⟨(by decide : (1 : Int) ≠ 0), rfl⟩
      | false => exact absurd ⟨rfl, rfl, by omega⟩ h

theorem storedBy_store_failed (dim : Nat) (embedding : Nat → UInt32) (text : List UInt8) (io : StoreIo)
    {e : TernaryError} (h : e ≠ .ok) : storedBy dim (.store embedding text io) (.done e) = [] := by
  unfold storedBy
  split
  · next heq => cases heq; exact absurd rfl h
  · next heq => cases heq
  · rfl

theorem storedBy_autoSave_skipped (dim : Nat) (embedding : Option (Nat → UInt32)) (duplicate : Bool) (text : List UInt8)
    (io : StoreIo) {n : Int} (h : n ≠ 0) : storedBy dim (.autoSave embedding duplicate text io) (.saved n) = [] := by
  unfold storedBy
  split
  · next heq => cases heq
  · next heq => cases heq; exact absurd rfl h
  · rfl

section
variable {dim : Nat} (hdim : 0 < dim) (hdim' : dim < 2 ^ 31)

include hdim hdim' in
/-- A step without a fault keeps file and memory at the entries stored. -/
theorem step_clean {w : World} {stored : List Entry} (h : Clean dim w stored) {op : Op} (hio : NoFault op w) :
    (storeFails op (step dim op w).1 → (step dim op w).2.db.entries = w.db.entries) ∧
      Clean dim (step dim op w).2 (stored ++ storedBy dim op (step dim op w).1) := by
  cases op with
  | «open» header =>
    obtain ⟨-, -, hclean⟩ := vectorDbOpen_clean hdim hdim' h hio
    refine ⟨False.elim, ?_⟩
    rw [storedBy, List.append_nil]
    · exact hclean
    all_goals nofun
  | store embedding text io =>
    by_cases hw : StoreWrites w
    · obtain ⟨hr, hclean⟩ := vectorDbStore_clean h hw embedding text (hio hw)
      have hreply : (step dim (.store embedding text io) w).1 = .done .ok := congrArg Reply.done hr
      rw [hreply]
      exact ⟨fun hf => absurd rfl hf, hclean⟩
    · obtain ⟨hr, hw'⟩ := vectorDbStore_idle hw embedding text io
      refine ⟨fun _ => congrArg (·.db.entries) hw', ?_⟩
      change Clean dim (vectorDbStore embedding text io w).2 (stored ++ storedBy dim _ (.done (vectorDbStore embedding text io w).1))
      rw [hw', storedBy_store_failed dim embedding text io hr, List.append_nil]
      exact h
  | autoSave embedding duplicate text io =>
    by_cases hstores : embedding.isSome ∧ duplicate = false ∧ w.db.entries.length < vrdbMaxEntries
    · obtain ⟨hemb, rfl, hlt⟩ := hstores
      obtain ⟨embedding, rfl⟩ := Option.isSome_iff_exists.1 hemb
      change (storeFails _ (.saved (autoSaveMemory (some embedding) false text io w).1) →
          (autoSaveMemory (some embedding) false text io w).2.db.entries = w.db.entries) ∧
        Clean dim (autoSaveMemory (some embedding) false text io w).2
          (stored ++ storedBy dim _ (.saved (autoSaveMemory (some embedding) false text io w).1))
      rw [autoSaveMemory_store hlt]
      by_cases hw : StoreWrites w
      · obtain ⟨hr, hclean⟩ := vectorDbStore_clean h hw embedding text (hio ⟨rfl, rfl⟩ hw)
        rw [if_pos hr]
        exact ⟨fun hf => absurd hf (by decide : ¬ ((0 : Int) < 0)), hclean⟩
      · obtain ⟨hr, hw'⟩ := vectorDbStore_idle hw embedding text io
        rw [if_neg hr, hw', storedBy_autoSave_skipped _ _ _ _ _ (by decide : (-1 : Int) ≠ 0), List.append_nil]
        exact ⟨fun _ => rfl, h⟩
    · obtain ⟨hr, hw'⟩ := autoSaveMemory_skip hstores text io
      refine ⟨fun _ => congrArg (·.db.entries) hw', ?_⟩
      change Clean dim (autoSaveMemory embedding duplicate text io w).2
        (stored ++ storedBy dim _ (.saved (autoSaveMemory embedding duplicate text io w).1))
      rw [hw', storedBy_autoSave_skipped _ _ _ _ _ hr, List.append_nil]
      exact h
  | close =>
    refine ⟨False.elim, ?_⟩
    rw [storedBy, List.append_nil]
    · exact ⟨h.entryOk, h.le, h.disk, nofun⟩
    all_goals nofun

include hdim in
/-- A step with a fault loses: a store has changed the memory and fails, an open leaves a cut header. -/
theorem step_fault {w : World} {stored : List Entry} (h : Clean dim w stored) {op : Op} (hio : ¬ NoFault op w) :
    storeFails op (step dim op w).1 ∧ (step dim op w).2.db.entries ≠ w.db.entries ∨ Broken (step dim op w).2 := by
  cases op with
  | «open» header =>
    obtain ⟨hdisk, hheader⟩ : w.disk = none ∧ header ≠ .ok := Classical.not_imp.1 hio
    obtain ⟨written, rfl⟩ : ∃ written, header = .fail written := by
      cases header with
      | ok => exact absurd rfl hheader
      | fail written => exact ⟨written, rfl⟩
    exact .inr (vectorDbOpen_fault hdim w hdisk written)
  | store embedding text io =>
    obtain ⟨hw, hio⟩ : StoreWrites w ∧ ¬ io.AllOk := Classical.not_imp.1 hio
    exact .inl (vectorDbStore_fault h hw embedding text hio)
  | autoSave embedding duplicate text io =>
    obtain ⟨hstores, hfault⟩ := Classical.not_imp.1 hio
    obtain ⟨hw, hfault⟩ := Classical.not_imp.1 hfault
    obtain ⟨hemb, rfl⟩ := hstores
    obtain ⟨embedding, rfl⟩ := Option.isSome_iff_exists.1 hemb
    obtain ⟨hr, hne⟩ := vectorDbStore_fault h hw embedding text hfault
    left
    change (autoSaveMemory (some embedding) false text io w).1 < 0 ∧
      (autoSaveMemory (some embedding) false text io w).2.db.entries ≠ w.db.entries
    rw [autoSaveMemory_store hw.2, if_neg hr]
    exact ⟨(by decide : (-1 : Int) < 0), hne⟩
  | close => exact absurd trivial hio

include hdim in
theorem vectorDbOpen_broken {w : World} (h : Broken w) (o : IoOutcome) :
    (vectorDbOpen dim o w).1 = .dbOpen ∧ Broken (vectorDbOpen dim o w).2 := by
  obtain ⟨⟨bytes, hdisk, hlen⟩, -⟩ := h
  have hne : dim ≠ 0 := by omega
  have hread : (File.mk bytes 0).read 16 = none := if_neg (by dsimp only; omega)
  unfold vectorDbOpen
  rw [if_neg hne]
  split
  · next h => exact absurd (hdisk.symm.trans h) nofun
  · next b h =>
    obtain rfl : bytes = b := Option.some.inj (hdisk.symm.trans h)
    split
    · exact ⟨rfl, ⟨bytes, hdisk, hlen⟩, rfl⟩
    · next h => exact absurd (hread.symm.trans h) nofun

include hdim in
theorem step_broken {w : World} (h : Broken w) (op : Op) : Broken (step dim op w).2 := by
  have hclosed : ¬ StoreWrites w := fun hw => by
    have := hw.1
    rw [h.closed] at this
    cases this
  cases op with
  | «open» header => exact (vectorDbOpen_broken hdim h header).2
  | store embedding text io =>
    have hw' : (step dim (.store embedding text io) w).2 = w := (vectorDbStore_idle hclosed embedding text io).2
    rw [hw']
    exact h
  | autoSave embedding duplicate text io =>
    have hw' : (step dim (.autoSave embedding duplicate text io) w).2 = w := by
      by_cases hstores : embedding.isSome ∧ duplicate = false ∧ w.db.entries.length < vrdbMaxEntries
      · obtain ⟨hemb, rfl, hlt⟩ := hstores
        obtain ⟨embedding, rfl⟩ := Option.isSome_iff_exists.1 hemb
        change (autoSaveMemory (some embedding) false text io w).2 = w
        rw [autoSaveMemory_store hlt]
        exact (vectorDbStore_idle hclosed embedding text io).2
      · exact (autoSaveMemory_skip hstores text io).2
    rw [hw']
    exact h
  | close => exact ⟨h.disk, rfl⟩

include hdim in
theorem not_durable_broken (ops : List Op) {w : World} (stored : List Entry) (h : Broken w) : ¬ Durable dim ops w stored := by
  induction ops generalizing w stored with
  | nil =>
    intro hd
    have hfail := (vectorDbOpen_broken hdim h .ok).1
    rw [hd.1] at hfail
    cases hfail
  | cons op ops ih => exact fun hd => ih _ (step_broken hdim h op) hd.2

include hdim hdim' in
theorem durable_iff_of_clean (ops : List Op) {w : World} {stored : List Entry} (h : Clean dim w stored) :
    Durable dim ops w stored ↔ NoFaults dim ops w := by
  induction ops generalizing w stored with
  | nil =>
    obtain ⟨hr, hentries, -⟩ := vectorDbOpen_clean hdim hdim' h fun _ => rfl
    exact iff_of_true ⟨hr, hentries⟩ trivial
  | cons op ops ih =>
    by_cases hio : NoFault op w
    · obtain ⟨hstore, hclean⟩ := step_clean hdim hdim' h hio
      exact ⟨fun hd => ⟨hio, (ih hclean).1 hd.2⟩, fun hn => ⟨hstore, (ih hclean).2 hn.2⟩⟩
    · refine iff_of_false (fun hd => ?_) fun hn => hio hn.1
      rcases step_fault hdim h hio with ⟨hfails, hne⟩ | hbroken
      · exact hne (hd.1 hfails)
      · exact not_durable_broken hdim ops _ hbroken hd.2

end

/-- The runs on a new path that are durable are those in which no I/O call fails. -/
theorem durable_iff (dim : Nat) (hdim : 0 < dim) (hdim' : dim < 2 ^ 31) (ops : List Op) :
    Durable dim ops ⟨none, VectorDB.zero⟩ [] ↔ NoFaults dim ops ⟨none, VectorDB.zero⟩ :=
  durable_iff_of_clean hdim hdim' ops (clean_zero dim)

theorem durable_iff_reopened :
    Durable 1 [.open .ok, .store (fun _ => 7) [97] ⟨.ok, .ok, .ok, .ok, .ok⟩, .close, .open .ok] ⟨none, VectorDB.zero⟩ [] ↔
      NoFaults 1 [.open .ok, .store (fun _ => 7) [97] ⟨.ok, .ok, .ok, .ok, .ok⟩, .close, .open .ok]
        ⟨none, VectorDB.zero⟩ :=
  durable_iff 1 (by decide) (by decide) _

/-- The first `fwrite` of a store fails: the store returns an error with its entry in memory. -/
theorem failed_store_in_memory :
    ¬ Durable 1 [.open .ok, .store (fun _ => 7) [97] ⟨.ok, .fail 0, .ok, .ok, .ok⟩] ⟨none, VectorDB.zero⟩ [] := by
  intro hd
  have hopen := vectorDbOpen_create (by decide : 0 < 1) ⟨none, VectorDB.zero⟩ rfl
  have hstep : (step 1 (.open .ok) ⟨none, VectorDB.zero⟩).2 =
      ⟨some (fileBytes 1 []), { VectorDB.ofDim 1 with fp := some 16 }⟩ := congrArg Prod.snd hopen
  have hfaults := (durable_iff_of_clean (by decide) (by decide) _ (clean_zero 1)).1 hd
  have hwrites : StoreWrites (step 1 (.open .ok) ⟨none, VectorDB.zero⟩).2 := by
    rw [hstep]
    exact ⟨rfl, by decide⟩
  exact absurd (hfaults.2.1 hwrites).2.1 nofun

end BitForge.Rag
