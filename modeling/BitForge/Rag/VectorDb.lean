/-
The vector database of `rag/vector_db.c` and `rag/auto_save.c`: entries in memory, a header and one
record for each entry in the file. Each `fseek` and `fwrite` has its outcome from the environment;
memory allocation is taken to succeed. Floats are their 32 bits.
-/
import BitForge.Lib.Bytes
import BitForge.Lib.File

namespace BitForge.Rag

open BitForge.Lib

inductive TernaryError
  | ok
  | invalidArgs
  | dbOpen
  | dbWrite
  | oom
  | invalidMagic
  | versionMismatch
  | dimensionMismatch
deriving DecidableEq, Repr

def vrdbMagic : Nat := 0x42445256
def vrdbVersion : Nat := 1
def vrdbMaxText : Nat := 4096
def vrdbMaxEntries : Nat := 65536

/-- A row of `embeddings` and the text of it. -/
structure Entry where
  embedding : List UInt32
  text : List UInt8
deriving DecidableEq, Repr

/-- `VectorDB`; `fp` is the position of the open file. -/
structure VectorDB where
  entries : List Entry
  embedDim : Nat
  capacity : Nat
  fp : Option Nat
deriving DecidableEq, Repr

/-- `memset(db, 0, sizeof(*db))`. -/
def VectorDB.zero : VectorDB := ⟨[], 0, 0, none⟩

/-- A zeroed database after `db->embed_dim = embed_dim`. -/
def VectorDB.ofDim (embedDim : Nat) : VectorDB := ⟨[], embedDim, 0, none⟩

/-- The file at the path, if it exists, and the database. -/
structure World where
  disk : Option (List UInt8)
  db : VectorDB
deriving DecidableEq, Repr

/-- The text of a C string argument. -/
def cString (bytes : List UInt8) : List UInt8 := bytes.takeWhile (· ≠ 0)

/-- `write_header`. -/
def writeHeader (f : File) (numEntries embedDim : Nat) (o : IoOutcome) : File × TernaryError :=
  let hdr := [vrdbMagic, vrdbVersion, numEntries, embedDim]
  match f.rewind.write (hdr.flatMap le32) o with
  | (f, true) => (f, .ok)
  | (f, false) => (f, .dbWrite)

/-- `embeddings_reserve`; `none` is `TN_ERR_OOM`. -/
def embeddingsReserve (db : VectorDB) : Option VectorDB :=
  if db.entries.length < db.capacity then some db
  else
    let newCap := if db.capacity = 0 then 64 else db.capacity * 2
    if newCap > vrdbMaxEntries then none else some { db with capacity := newCap }

/-- The reads of one record in the loop of `vector_db_open`; `none` is `TN_ERR_DB_OPEN`. -/
def readEntry (embedDim : Nat) (f : File) : Option (Entry × File) :=
  (f.read (4 * embedDim)).bind fun (emb, f) =>
    (f.read 4).bind fun (len, f) =>
      let textLen := rd32 len 0
      if textLen = 0 ∨ textLen > vrdbMaxText then none
      else
        (f.read textLen).map fun (text, f) =>
          ({ embedding := (List.range embedDim).map fun j => UInt32.ofNat (rd32 emb (4 * j))
             text := cString (text.take (textLen - 1)) }, f)

/-- The loop of `vector_db_open` over the records, with the number of those left. Where the file
stands after a read that fails is not used: a store seeks first. -/
def loadEntries : Nat → File → VectorDB → TernaryError × VectorDB × File
  | 0, f, db => (.ok, db, f)
  | n + 1, f, db =>
    match embeddingsReserve db with
    | none => (.oom, db, f)
    | some db =>
      match readEntry db.embedDim f with
      | none => (.dbOpen, db, f)
      | some (entry, f) => loadEntries n f { db with entries := db.entries ++ [entry] }

/-- `vector_db_open`; the outcome is that of the header of a new file. -/
def vectorDbOpen (embedDim : Nat) (o : IoOutcome) (w : World) : TernaryError × World :=
  if embedDim = 0 then (.invalidArgs, w)
  else
    match w.disk with
    | none =>
      -- file does not exist, create it
      match writeHeader ⟨[], 0⟩ 0 embedDim o with
      | (f, .ok) => (.ok, ⟨some f.bytes, { VectorDB.ofDim embedDim with fp := some f.pos }⟩)
      | (f, e) => (e, ⟨some f.bytes, VectorDB.ofDim embedDim⟩)
    | some bytes =>
      match (File.mk bytes 0).read 16 with
      | none => (.dbOpen, { w with db := VectorDB.ofDim embedDim })
      | some (hdr, f) =>
        if rd32 hdr 0 ≠ vrdbMagic then (.invalidMagic, { w with db := VectorDB.ofDim embedDim })
        else if rd32 hdr 4 ≠ vrdbVersion then (.versionMismatch, { w with db := VectorDB.ofDim embedDim })
        else if toInt32 (rd32 hdr 12) ≠ embedDim then (.dimensionMismatch, { w with db := VectorDB.ofDim embedDim })
        else
          match loadEntries (toInt32 (rd32 hdr 8)).toNat f (VectorDB.ofDim embedDim) with
          | (e, db, f) => (e, { w with db := { db with fp := some f.pos } })

/-- The outcomes of the calls of a store. -/
structure StoreIo where
  seek : IoOutcome
  embedding : IoOutcome
  textLen : IoOutcome
  text : IoOutcome
  header : IoOutcome
deriving DecidableEq, Repr

/-- The entry that a store adds. -/
def newEntry (embedDim : Nat) (embedding : Nat → UInt32) (text : List UInt8) : Entry :=
  { embedding := (List.range embedDim).map embedding
    text := (cString text).take (vrdbMaxText - 1) }

/-- The parts of the record of an entry; the text is written with its NUL. -/
def recordParts (e : Entry) : List (List UInt8) :=
  [e.embedding.flatMap fun v => le32 v.toNat, le32 (e.text.length + 1), e.text ++ [0]]

/-- The second half of `vector_db_store`: the record at the end of the file and the header with the
new number of entries. -/
def appendRecord (f : File) (e : Entry) (numEntries embedDim : Nat) (io : StoreIo) : File × TernaryError :=
  match f.seekEnd io.seek with
  | (f, false) => (f, .dbWrite)
  | (f, true) =>
    match f.writeAll ((recordParts e).zip [io.embedding, io.textLen, io.text]) with
    | (f, false) => (f, .dbWrite)
    | (f, true) => writeHeader f numEntries embedDim io.header

/-- `vector_db_store`. -/
def vectorDbStore (embedding : Nat → UInt32) (text : List UInt8) (io : StoreIo) (w : World) : TernaryError × World :=
  match w.db.fp with
  | none => (.dbOpen, w)
  | some pos =>
    if w.db.entries.length ≥ vrdbMaxEntries then (.oom, w)
    else
      match embeddingsReserve w.db with
      | none => (.oom, w)
      | some db =>
        let entry := newEntry db.embedDim embedding text
        -- the entry is in memory before the first I/O call
        let db := { db with entries := db.entries ++ [entry] }
        match appendRecord ⟨w.disk.getD [], pos⟩ entry db.entries.length db.embedDim io with
        | (f, e) => (e, ⟨some f.bytes, { db with fp := some f.pos }⟩)

/-- `vector_db_close`. -/
def vectorDbClose (w : World) : World := { w with db := VectorDB.zero }

/-- `auto_save_memory` for what `embedder_generate` makes of the text, and whether some entry is too
similar to it: 0 saved, 1 a duplicate, -1 an error. -/
def autoSaveMemory (embedding : Option (Nat → UInt32)) (duplicate : Bool) (text : List UInt8) (io : StoreIo) (w : World) :
    Int × World :=
  if w.db.entries.length ≥ vrdbMaxEntries then (-1, w)
  else
    match embedding with
    | none => (-1, w)
    | some embedding =>
      if duplicate then (1, w)
      else (if (vectorDbStore embedding text io w).1 = .ok then 0 else -1, (vectorDbStore embedding text io w).2)

end BitForge.Rag
