import AsyncDatabase.Library.Throwing
import AsyncDatabase.Partition
import AsyncDatabase.Schema

/-!
# The store

One node's store over RocksDB (`repository/rocksdb_repository.cpp`). A `Disk` is what the database
keeps, a `Store` is an open one with what the process holds in memory beside it: the schema, the
terms and the block of counts. Every operation is a program that may throw where a call of the
database fails, and what it did before that stands.

What the database answers is a parameter of each operation (`Database`), so a theorem about every
run is about every way its calls can fail.
-/

namespace AsyncDatabase

open Bytes (ascii)
open Throwing

/-! ### What is kept -/

/-- The records of one column family, by the key the store holds each under. -/
abbrev Family := Std.ExtTreeMap Bytes Bytes

/-- `rocksdb::kDefaultColumnFamilyName`. -/
def defaultFamily : Bytes := ascii "default"

/-- What the database keeps: the column families, and the records of the store's own that the
default one holds beside any table's. -/
structure Disk where
  families : Std.ExtTreeMap Bytes Family
  /-- The record `SCHEMA`. -/
  schema : Option Bytes
  /-- The record `COUNT`: what the counts are reserved up to. -/
  count : Option ℕ
  /-- The records `TERM`, one for each partition. -/
  terms : Partition → Option ℤ

namespace Disk

/-- A directory nothing has been written into, as a database opened in it starts out. -/
def fresh : Disk where
  families := (∅ : Std.ExtTreeMap Bytes Family).insert defaultFamily ∅
  schema := none
  count := none
  terms := fun _ => none

end Disk

/-- `repository::rocksdb_repository`. The handles are the families of the disk: one is given out
when a family is made and given back when it is dropped, and never without. -/
structure Store where
  disk : Disk
  tables : Schema := ∅
  terms : PartitionTerms := fun _ => 0
  counts : ℕ := 0
  countsReserved : ℕ := 0

/-- What a call of the database answers. -/
inductive Status where
  | ok
  /-- Back pressure: the call was not carried out and may be made again. -/
  | stalled (text : Bytes)
  | failed (text : Bytes)
  deriving DecidableEq, Repr

/-- What the database answers the calls of one operation with. -/
structure Database where
  createFamily : Bytes → Status := fun _ => .ok
  dropFamily : Bytes → Status := fun _ => .ok
  putSchema : Status := .ok
  putCount : Status := .ok
  /-- The reading of the version a record stands at before it is written. -/
  getRecord : Status := .ok
  /-- The writing of records, the terms they raise with them. -/
  write : Status := .ok
  /-- The writing of the terms a file raises, before any record of it. -/
  writeTerms : Status := .ok
  /-- Whether a file that was sent here could be put down to be read. -/
  writeScratch : Bool := true
  /-- The reading of a file that was sent here. -/
  readFile : Status := .ok

/-- A program on the store: it answers, or it throws and leaves the store as it then was. -/
abbrev Action := EStateM StorageError Store

def check (status : Status) (what : Bytes) : Action Unit :=
  match status with
  | .ok => pure ()
  | .stalled text => throw ⟨.writeStalled, what ++ ascii " was refused: " ++ text⟩
  | .failed text => throw ⟨.storageError, what ++ ascii " failed: " ++ text⟩

namespace Store

/-! ### Column families -/

def setFamily (s : Store) (name : Bytes) (family : Family) : Store :=
  { s with disk := { s.disk with families := s.disk.families.insert name family } }

def eraseFamily (s : Store) (name : Bytes) : Store :=
  { s with disk := { s.disk with families := s.disk.families.erase name } }

def openFamily (db : Database) (name : Bytes) : Action Unit := do
  let s ← get
  if name ∈ s.disk.families then pure ()
  else
    check (db.createFamily name) (ascii "Creating table \"" ++ name ++ ascii "\"")
    set (s.setFamily name ∅)

/-- The default family is one RocksDB never drops. -/
def dropStatus (db : Database) (name : Bytes) : Status :=
  if name = defaultFamily then .failed (ascii "Invalid argument: Can't drop default column family")
  else db.dropFamily name

def dropFamily (db : Database) (name : Bytes) : Action Unit := do
  let s ← get
  if name ∈ s.disk.families then
    check (dropStatus db name) (ascii "Dropping table \"" ++ name ++ ascii "\"")
    set (s.eraseFamily name)
  else pure ()

/-! ### The schema -/

variable (J : JsonCodec)

def writeTables (db : Database) : Action Unit := do
  check db.putSchema (ascii "Writing the schema")
  modify fun s => { s with disk := { s.disk with schema := some (J.serialize s.tables.json) } }

def createTable (db : Database) (table : Table) (stamp : Version) : Action Unit := do
  openFamily db table.name
  modify fun s => { s with tables := s.tables.create table stamp }
  writeTables J db

def deleteTable (db : Database) (name : Bytes) (stamp : Version) : Action Unit := do
  dropFamily db name
  modify fun s => { s with tables := s.tables.remove name stamp }
  writeTables J db

/-- What a change of the schema does to the families. -/
def alterFamily (db : Database) (altered : Schema.Change) : Action Unit :=
  if altered.live then openFamily db altered.name else dropFamily db altered.name

def mergeSchema (db : Database) (named : Schema) : Action ℕ := do
  let s ← get
  let merged := s.tables.merge named
  set { s with tables := merged.1 }
  merged.2.forM (alterFamily db)
  writeTables J db
  pure merged.2.length

/-- The schema the record `SCHEMA` holds, and an empty one where there is no record. -/
def readSchemaRecord (disk : Disk) : Schema :=
  match disk.schema with
  | none => ∅
  | some text => Schema.toSchema J text

/-- The families the schema does not name. -/
def orphans (s : Store) : List Bytes :=
  (s.disk.families.toList.map Prod.fst).filter fun name =>
    name ≠ defaultFamily ∧ name ∉ s.tables.names

/-- `read_tables`: the families are made to match the schema the record holds. -/
def readTables (db : Database) : Action Unit := do
  modify fun s => { s with tables := readSchemaRecord J s.disk }
  let s ← get
  s.orphans.forM (dropFamily db)
  s.tables.names.forM (openFamily db)

/-! ### Terms and counts -/

def loadTerms (s : Store) : Store :=
  { s with terms := fun partition => (s.disk.terms partition).getD 0 }

/-- How many counts a reservation takes. -/
def countsPerReservation : ℕ := 1024 * 1024

def reserveCounts (db : Database) : Action Unit := do
  let s ← get
  let reserved := s.disk.count.getD 0
  let upTo := (reserved + countsPerReservation) % 2 ^ 64
  check db.putCount (ascii "Reserving a block of write counts")
  set { s with
    disk := { s.disk with count := some upTo }, counts := reserved, countsReserved := upTo }

def nextCount (db : Database) : Action ℕ := do
  let s ← get
  if s.counts = s.countsReserved then reserveCounts db
  modify fun s => { s with counts := (s.counts + 1) % 2 ^ 64 }
  let s ← get
  pure s.counts

/-- The terms of the store raised, on disk and in memory, to those a file carries. -/
def raisedTo (s : Store) (carried : PartitionTerms) : Store :=
  { s with
    disk := { s.disk with
      terms := fun partition =>
        if s.terms partition < carried partition then some (carried partition)
        else s.disk.terms partition }
    terms := fun partition =>
      if s.terms partition < carried partition ∧ 0 < carried partition then carried partition
      else s.terms partition }

/-- `raise_terms`: the terms raised to the newest a file carries, before any record of it. -/
def raiseTerms (db : Database) (carried : PartitionTerms) (what : Bytes) : Action Unit := do
  let s ← get
  if ∀ partition, carried partition ≤ s.terms partition then pure ()
  else
    check db.writeTerms what
    set (s.raisedTo carried)

/-! ### Records -/

/-- Two bytes, most significant first. -/
def partitionPrefix (partition : ℕ) : Bytes :=
  [UInt8.ofNat (partition >>> 8 &&& 0xff), UInt8.ofNat (partition &&& 0xff)]

/-- The key as the store holds it: its partition goes in front. -/
def storeKey (key : Bytes) : Bytes := partitionPrefix (partitionOf key) ++ key

def composedKey (key : Bytes) : Bytes := if key.length < 2 then [] else key.drop 2

/-- The partition a key of the store is held under, read off its prefix. -/
def partitionHeld (key : Bytes) : ℕ :=
  match key with
  | high :: low :: _ => (high.toNat <<< 8) ||| low.toNat
  | _ => 0

def tableHandle (name : Bytes) : Action Family := do
  let s ← get
  match s.disk.families[name]? with
  | some family => pure family
  | none => throw ⟨.tableNotFound, ascii "No table named \"" ++ name ++ ascii "\"."⟩

/-- The version a record is written in is newer than the term its partition stands at. -/
def raiseTerm (s : Store) (partition : Partition) (term : ℤ) : Store :=
  { s with
    disk := { s.disk with terms := Function.update s.disk.terms partition (some term) }
    terms := Function.update s.terms partition term }

def writeRecord (db : Database) (name : Bytes) (record : Record) : Action Unit := do
  let what := ascii "Writing a record to \"" ++ name ++ ascii "\""
  let partition := partitionOf record.key
  let value := Record.composeValue record.stamp record.value
  let key := storeKey record.key
  let family ← tableHandle name
  check db.getRecord what
  -- of two writes of one key the later stands, whichever of them is handed in first
  if family[key]?.any (Record.isNewer · value) then pure ()
  else
    check db.write what
    modify fun s => s.setFamily name (family.insert key value)
    let s ← get
    if record.stamp.term ≤ s.terms partition then pure ()
    else set (s.raiseTerm partition record.stamp.term)

def readRecord (db : Database) (name key : Bytes) : Action (Option Bytes) := do
  let family ← tableHandle name
  check db.getRecord (ascii "Reading a record from \"" ++ name ++ ascii "\"")
  pure (family[storeKey key]?.map Record.valueOf)

/-! ### Files of records -/

/-- A record of a file: the key it is held under and the value as it is stored. -/
abbrev Carried := Bytes × Bytes

/-- A record of a file is taken where nothing is held for its key or what is held is older. -/
def takes (family : Family) (carried : Carried) : Bool :=
  family[carried.1]?.all (Record.isNewer carried.2)

/-- A record of a file gives its key up where what is held for it is no newer. -/
def clears (family : Family) (carried : Carried) : Bool :=
  family[carried.1]?.any fun held => !Record.isNewer held carried.2

/-- One turn of the loop of `import_records` over the terms its file carries. -/
def carryTerm (terms : PartitionTerms) (carried : Carried) : PartitionTerms :=
  let term := (Record.versionOf carried.2).term
  if h : partitionHeld carried.1 < partitionCount then
    let partition : Partition := ⟨partitionHeld carried.1, h⟩
    if terms partition < term then Function.update terms partition term else terms
  else terms

/-- The newest term a file carries in each partition, and no term where it carries none. -/
def carriedTerms (file : List Carried) : PartitionTerms := file.foldl carryTerm fun _ => 0

/-- A file ingested into a family is written above what is there. -/
def ingest (family : Family) (file : List Carried) : Family :=
  file.foldl (fun family carried => family.insert carried.1 carried.2) family

/-- A batch of deletes. -/
def eraseAll (family : Family) (keys : List Bytes) : Family :=
  keys.foldl (fun family key => family.erase key) family

/-- What a pass does with a file before it reads it. -/
def readFile (db : Database) (what : Bytes) : Action Unit :=
  if db.writeScratch then check db.readFile what
  else throw ⟨.storageError, what ++ ascii " failed: the file could not be written."⟩

def importRecords (db : Database) (name : Bytes) (file : List Carried) : Action ℕ := do
  if file = [] then pure 0
  else
    let what := ascii "Importing a file into \"" ++ name ++ ascii "\""
    let family ← tableHandle name
    readFile db what
    -- the first walk says whether a second is needed
    let records := (file.filter (takes family)).length
    raiseTerms db (carriedTerms file) what
    if records = 0 then pure 0
    else if file.all (·.1 ∉ family) then
      check db.write what
      modify fun s => s.setFamily name (ingest family file)
      pure records
    else
      let family ← tableHandle name
      let kept := file.filter (takes family)
      if kept = [] then pure 0
      else
        check db.write what
        modify fun s => s.setFamily name (ingest family kept)
        pure kept.length

def clearRecords (db : Database) (name : Bytes) (file : List Carried) : Action ℕ := do
  if file = [] then pure 0
  else
    let what := ascii "Clearing records of \"" ++ name ++ ascii "\""
    let family ← tableHandle name
    readFile db what
    let cleared := file.filter (clears family)
    if cleared = [] then pure 0
    else
      check db.write what
      modify fun s => s.setFamily name (eraseAll family (cleared.map Prod.fst))
      pure cleared.length

/-! ### Opening -/

/-- The constructor: what the disk keeps, read into memory. The counts in memory start out as none
of a block that was reserved. -/
def openStore (db : Database) (disk : Disk) : EStateM.Result StorageError Store Unit :=
  (do readTables J db; modify loadTerms) { disk }

end Store

end AsyncDatabase
