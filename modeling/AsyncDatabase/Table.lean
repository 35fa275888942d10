import AsyncDatabase.Error
import AsyncDatabase.Library.Json

/-!
# Tables

A table is a name and the names of the tables it depends on (`table/table.h`, `table/table.cpp`).
`parseTable` reads what a client declares and refuses what is not valid, `toTable` reads what a
store or another node wrote and refuses nothing.
-/

namespace AsyncDatabase

open Bytes (ascii)

/-- `table::table`. -/
structure Table where
  name : Bytes
  dependencies : List Bytes
  deriving DecidableEq, Repr

namespace Table

def maxNameSize : ℕ := 64

/-- A byte a table's name may hold: `[A-Za-z0-9_ -]`. -/
def isNameByte (b : UInt8) : Bool :=
  (97 ≤ b && b ≤ 122) || (65 ≤ b && b ≤ 90) || (48 ≤ b && b ≤ 57) || b == 32 || b == 95 || b == 45

def isValidName (name : Bytes) : Bool :=
  if name = [] ∨ maxNameSize < name.length ∨ name = ascii "default" then false
  else name.all isNameByte

/-- The names a list of dependencies is read as: the first one that is not a string or not a table
refuses the whole of it. -/
def readDependencies (tables : Bytes → Bool) : List Json → Except ErrorMessage (List Bytes)
  | [] => .ok []
  | element :: elements =>
    match element.asString? with
    | none => .error ⟨.dependencyNotFound, ascii "A dependency is not the name of a table."⟩
    | some dependency =>
      if !tables dependency then
        .error ⟨.dependencyNotFound,
          ascii "Dependency \"" ++ dependency ++ ascii "\" is not a table."⟩
      else (readDependencies tables elements).map (dependency :: ·)

/-- `parse_table`: a table of this name as a request's body declares it, against the tables there
are. -/
def parseTable (name : Bytes) (json : Json) (tables : Bytes → Bool) : Except ErrorMessage Table :=
  if !isValidName name then
    .error ⟨.invalidTableName, ascii "Table name \"" ++ name ++ ascii "\" is not 1 to " ++
      Bytes.decimal maxNameSize ++ ascii " characters of [A-Za-z0-9_ -], or is reserved."⟩
  else match json.member? (ascii "dependencies") with
    | none => .ok ⟨name, []⟩
    | some dependencies =>
      match dependencies.asArray? with
      | none =>
        .error ⟨.dependencyNotFound, ascii "Dependencies are not a list of table names."⟩
      | some elements => (readDependencies tables elements).map fun names => ⟨name, names⟩

/-- `to_table`: a table as a document of one holds it. What is missing is left empty. -/
def toTable (json : Json) : Table where
  name := ((json.member? (ascii "name")).bind Json.asString?).getD []
  dependencies :=
    (((json.member? (ascii "dependencies")).bind Json.asArray?).getD []).filterMap Json.asString?

def toJson (table : Table) : Json :=
  .object [(ascii "name", .string table.name),
    (ascii "dependencies", .array (table.dependencies.map .string))]

/-! ### Names and documents -/

/-- Every name the table holds is well-formed UTF-8. -/
def utf8 (table : Table) : Bool := Utf8.valid table.name && table.dependencies.all Utf8.valid

theorem lt_of_isNameByte {b : UInt8} (h : isNameByte b = true) : b < 0x80 := by
  have hb := b.toNat_lt
  simp only [isNameByte, Bool.or_eq_true, Bool.and_eq_true, decide_eq_true_eq, beq_iff_eq,
    UInt8.le_iff_toNat_le] at h
  rw [UInt8.lt_iff_toNat_lt]
  rcases h with ((((h | h) | h) | rfl) | rfl) | rfl
  · exact lt_of_le_of_lt h.2 (by decide)
  · exact lt_of_le_of_lt h.2 (by decide)
  · exact lt_of_le_of_lt h.2 (by decide)
  all_goals decide

/-- A name a client may declare is text. -/
theorem utf8_of_isValidName {name : Bytes} (h : isValidName name = true) :
    Utf8.valid name = true := by
  unfold isValidName at h
  split_ifs at h
  exact Utf8.valid_of_forall_lt fun b hb => lt_of_isNameByte (List.all_eq_true.mp h b hb)

theorem tables_of_readDependencies {tables : Bytes → Bool} {elements : List Json}
    {names : List Bytes} (h : readDependencies tables elements = .ok names) :
    ∀ name ∈ names, tables name = true := by
  induction elements generalizing names with
  | nil =>
    rw [readDependencies] at h
    cases h
    intro name hname
    cases hname
  | cons element elements ih =>
    rw [readDependencies] at h
    split at h
    · cases h
    · split_ifs at h with ht
      rename_i dependency _
      cases hrest : readDependencies tables elements with
      | error refused => rw [hrest] at h; cases h
      | ok rest =>
        rw [hrest] at h
        cases h
        intro name hname
        rcases List.mem_cons.mp hname with rfl | hname
        · simpa using ht
        · exact ih hrest name hname

/-- What a declared table is: the name it was declared under, a valid one, and dependencies that are
tables. -/
theorem parseTable_ok {name : Bytes} {json : Json} {tables : Bytes → Bool} {table : Table}
    (h : parseTable name json tables = .ok table) :
    table.name = name ∧ isValidName name = true ∧
      ∀ dependency ∈ table.dependencies, tables dependency = true := by
  unfold parseTable at h
  split_ifs at h with hname
  have hvalid : isValidName name = true := by simpa using hname
  split at h
  · cases h
    exact ⟨rfl, hvalid, fun dependency hd => by cases hd⟩
  · split at h
    · cases h
    · rename_i elements _
      cases hread : readDependencies tables elements with
      | error refused => rw [hread] at h; cases h
      | ok names =>
        rw [hread] at h
        cases h
        exact ⟨rfl, hvalid, tables_of_readDependencies hread⟩

/-- **A table is read back from the document it writes.** -/
theorem toTable_toJson (table : Table) : toTable table.toJson = table := by
  obtain ⟨name, dependencies⟩ := table
  have hnames : (dependencies.map Json.string).filterMap Json.asString? = dependencies := by
    rw [List.filterMap_map]
    exact List.filterMap_some
  unfold toTable toJson
  congr 1

theorem utf8_toJson (table : Table) : table.toJson.utf8 = table.utf8 := by
  have hkeys : Utf8.valid (ascii "name") = true ∧ Utf8.valid (ascii "dependencies") = true :=
    ⟨Utf8.valid_of_forall_lt (by decide +kernel), Utf8.valid_of_forall_lt (by decide +kernel)⟩
  simp only [toJson, Json.utf8, Json.utf8Members, Json.utf8Items_eq_all, hkeys, Bool.true_and,
    Bool.and_true, utf8, List.all_map]
  congr 1

/-- A table read from a well-formed document holds well-formed names. -/
theorem utf8_toTable {json : Json} (h : json.utf8 = true) : (toTable json).utf8 = true := by
  rw [utf8, Bool.and_eq_true]
  constructor
  · cases hname : (json.member? (ascii "name")).bind Json.asString? with
    | none => simp [toTable, hname]
    | some name =>
      obtain ⟨v, hv, hs⟩ := Option.bind_eq_some_iff.mp hname
      simpa [toTable, hname] using Json.utf8_of_asString? (Json.utf8_of_member? h hv) hs
  · rw [List.all_eq_true]
    intro dependency hd
    obtain ⟨v, hv, hs⟩ := List.mem_filterMap.mp hd
    cases hdeps : (json.member? (ascii "dependencies")).bind Json.asArray? with
    | none => rw [hdeps] at hv; cases hv
    | some items =>
      rw [hdeps] at hv
      obtain ⟨w, hw, ha⟩ := Option.bind_eq_some_iff.mp hdeps
      have hwu := Json.utf8_of_member? h hw
      exact Json.utf8_of_asString? (Json.utf8_of_mem_asArray? hwu ha hv) hs

theorem regular_toJson (table : Table) : table.toJson.regular := by
  have hnames : [ascii "name", ascii "dependencies"].Nodup := by decide
  simp only [toJson, Json.regular, Json.regularMembers, Json.regularItems_iff]
  refine ⟨hnames, trivial, fun v hv => ?_, trivial⟩
  obtain ⟨dependency, -, rfl⟩ := List.mem_map.mp hv
  simp [Json.regular]

theorem depth_toJson (table : Table) : table.toJson.depth ≤ 2 := by
  have hitems : Json.depthItems (table.dependencies.map .string) ≤ 0 := by
    rw [Json.depthItems_le_iff]
    intro v hv
    obtain ⟨dependency, -, rfl⟩ := List.mem_map.mp hv
    simp [Json.depth]
  simp only [toJson, Json.depth, Json.depthMembers]
  omega

end Table

end AsyncDatabase
