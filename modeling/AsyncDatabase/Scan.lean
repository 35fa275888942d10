import AsyncDatabase.Base64
import AsyncDatabase.Repository
import AsyncDatabase.Url

/-!
# Scans

The range a scan reads and the page it is answered with (`scan/scan.h`, `scan/scan.cpp`,
`rocksdb_repository::scan_records`).
-/

namespace AsyncDatabase

open Bytes (ascii readDecimal)

namespace Scan

def defaultLimit : ℕ := 100

def maxLimit : ℕ := 1000

def maxPageBytes : ℕ := 8 * 1024 * 1024

/-- `scan::range`. -/
structure Range where
  partition : Partition
  lower : Bytes := []
  upper : Bytes := []
  hasLower : Bool := false
  hasUpper : Bool := false
  reverse : Bool := false
  values : Bool := true
  limit : ℕ := defaultLimit

/-- `scan::page`. -/
structure Page where
  records : List Record := []
  hasMore : Bool := false

/-- The first string above every string that begins with this one, where there is one: the last byte
that can be raised is raised, and what is behind it dropped. -/
def prefixEnd (text : Bytes) : Option Bytes :=
  match text.reverse.dropWhile (· = 0xff) with
  | [] => none
  | last :: before => some (before.reverse ++ [last + 1])

/-- What a text says converted to an unsigned number of 64 bits: digits, with a sign in front or
none, the negative of a number being what it wraps round to. -/
def readSize (text : Bytes) : Option ℕ :=
  let negative := text.head? = some 45
  let digits := if negative ∨ text.head? = some 43 then text.drop 1 else text
  match readDecimal digits with
  | none => none
  | some number =>
    if 2 ^ 64 ≤ number then none
    else some (if negative then (2 ^ 64 - number) % 2 ^ 64 else number)

def readLimit (query : Bytes) : ℕ :=
  match readSize (Url.readParameter query (ascii "limit")) with
  | none => defaultLimit
  | some limit => min (max limit 1) maxLimit

/-- `scan::read_partition`: the partition a query names, as a number or as a key that is in it. -/
def readPartition (query : Bytes) : Option Partition :=
  let named := Url.readParameter query (ascii "partition")
  let key := Url.readParameter query (ascii "key")
  if named.isEmpty = key.isEmpty then none
  else if key ≠ [] then some (partitionOf key)
  else
    match readSize named with
    | none => none
    | some partition => if h : partition < partitionCount then some ⟨partition, h⟩ else none

variable (J : JsonCodec)

/-- The key a cursor was issued at, where this instance issued it for this partition. -/
def readCursor (cursor instanceName : Bytes) (partition : Partition) : Option Bytes :=
  match (Base64.decode cursor).bind J.parse with
  | none => none
  | some document =>
    match document.member? (ascii "k"), document.member? (ascii "s"),
      document.member? (ascii "p") with
    | some (.string key), some (.string issuer), some (.int64 number) =>
      if issuer = instanceName ∧ number = (partition : ℕ) then some key else none
    | _, _, _ => none

def encodeCursor (key instanceName : Bytes) (partition : Partition) : Bytes :=
  Base64.encode (J.serialize (.object [(ascii "k", .string key), (ascii "s", .string instanceName),
    (ascii "p", .int64 (partition : ℕ))]))

/-- A query that names no partition. -/
def unnamedPartition : ErrorMessage where
  code := .invalidPartition
  message := ascii
    "A scan names the partition it reads, as \"partition\" or as a \"key\" that is in it."

/-- The keys a query bounds a scan by: what begins with a prefix, and the bounds given besides. -/
def readBounds (query : Bytes) (range : Range) : Range :=
  let named := Url.readParameter query (ascii "prefix")
  let lower := Url.readParameter query (ascii "from")
  let upper := Url.readParameter query (ascii "to")
  let range :=
    if named = [] then range
    else match prefixEnd named with
      | none => { range with lower := named, hasLower := true }
      | some above =>
        { range with lower := named, hasLower := true, upper := above, hasUpper := true }
  let range := if lower = [] then range else { range with lower, hasLower := true }
  if upper = [] then range else { range with upper, hasUpper := true }

def parseRange (query instanceName : Bytes) : Except ErrorMessage Range :=
  match readPartition query with
  | none => .error unnamedPartition
  | some partition =>
    let range := readBounds query { partition }
    if range.hasLower ∧ range.hasUpper ∧ ¬range.lower < range.upper then
      .error ⟨.invalidRange, ascii "Range from \"" ++ range.lower ++
        ascii "\" is not below to \"" ++ range.upper ++ ascii "\"."⟩
    else
      let range := { range with
        reverse := Url.readParameter query (ascii "reverse") = ascii "true"
        values := Url.readParameter query (ascii "values") ≠ ascii "false"
        limit := readLimit query }
      let cursor := Url.readParameter query (ascii "cursor")
      if cursor = [] then .ok range
      else
        match readCursor J cursor instanceName partition with
        | none => .error ⟨.invalidCursor,
            ascii "Cursor was not issued by this instance for this partition."⟩
        | some key =>
          if range.reverse then .ok { range with upper := key, hasUpper := true }
          else .ok { range with lower := key ++ [0], hasLower := true }

/-- The record of a page, which has its value and its version where the scan asks for values. -/
def read (range : Range) (held : Bytes × Bytes) : Record where
  key := Store.composedKey held.1
  value := if range.values then Record.valueOf held.2 else []
  stamp := if range.values then Record.versionOf held.2 else {}

/-- What a record takes of a page: its key as a client reads it, and its value where it is asked
for. -/
def sizeOf (range : Range) (held : Bytes × Bytes) : ℕ :=
  held.1.length - 2 + if range.values then held.2.length else 0

/-- The loop of `scan_records`: records are read until the page is full. -/
def fill (range : Range) : List (Bytes × Bytes) → Page → ℕ → Page
  | [], page, _ => page
  | held :: rest, page, bytes =>
    if page.records.length = range.limit then { page with hasMore := true }
    else if page.records ≠ [] ∧ maxPageBytes < bytes + sizeOf range held then
      { page with hasMore := true }
    else fill range rest { page with records := page.records ++ [read range held] }
      (bytes + sizeOf range held)

end Scan

namespace Store

/-- The bounds of a scan as the store holds keys: those of its partition, unless the range narrows
them. -/
def scanned (family : Family) (range : Scan.Range) : List (Bytes × Bytes) :=
  let front := partitionPrefix range.partition
  let lower := if range.hasLower then front ++ range.lower else front
  let upper := if range.hasUpper then front ++ range.upper else
    partitionPrefix (range.partition + 1)
  let held := family.toList.filter fun held => ¬held.1 < lower ∧ held.1 < upper
  if range.reverse then held.reverse else held

def scanRecords (db : Database) (name : Bytes) (range : Scan.Range) : Action Scan.Page := do
  let family ← tableHandle name
  check db.getRecord (ascii "Scanning \"" ++ name ++ ascii "\"")
  pure (Scan.fill range (scanned family range) {} 0)

end Store

end AsyncDatabase
