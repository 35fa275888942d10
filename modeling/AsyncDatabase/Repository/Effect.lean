import AsyncDatabase.Repository

/-!
# What the operations of the schema leave behind

The operations of `AsyncDatabase.Repository` on the schema and the column families, as the store
each leaves behind: where every call of the database goes through, and where one fails.
-/

namespace AsyncDatabase

open Bytes (ascii)
open Throwing

namespace Store

variable (J : JsonCodec)

/-! ### Stores and what changes in them -/

def setTables (s : Store) (tables : Schema) : Store := { s with tables }

/-- The store once its schema has been written down. -/
def writeDown (s : Store) : Store :=
  { s with disk := { s.disk with schema := some (J.serialize s.tables.json) } }

def withFamilies (s : Store) (families : Std.ExtTreeMap Bytes Family) : Store :=
  { s with disk := { s.disk with families } }

/-- The store with a family of this name, an empty one where it had none. -/
def withFamily (s : Store) (name : Bytes) : Store :=
  if name ∈ s.disk.families then s else s.setFamily name ∅

section Simp

variable (s : Store) (name : Bytes) (family : Family) (tables : Schema)

@[simp] theorem tables_setFamily : (s.setFamily name family).tables = s.tables := rfl
@[simp] theorem schema_setFamily : (s.setFamily name family).disk.schema = s.disk.schema := rfl
@[simp] theorem tables_eraseFamily : (s.eraseFamily name).tables = s.tables := rfl
@[simp] theorem schema_eraseFamily : (s.eraseFamily name).disk.schema = s.disk.schema := rfl
@[simp] theorem tables_setTables : (s.setTables tables).tables = tables := rfl
@[simp] theorem disk_setTables : (s.setTables tables).disk = s.disk := rfl
@[simp] theorem tables_writeDown : (s.writeDown J).tables = s.tables := rfl
@[simp] theorem families_writeDown : (s.writeDown J).disk.families = s.disk.families := rfl
@[simp] theorem schema_writeDown :
    (s.writeDown J).disk.schema = some (J.serialize s.tables.json) := rfl

@[simp] theorem tables_withFamily : (s.withFamily name).tables = s.tables := by
  unfold withFamily; split_ifs <;> rfl

@[simp] theorem schema_withFamily : (s.withFamily name).disk.schema = s.disk.schema := by
  unfold withFamily; split_ifs <;> rfl

theorem getElem?_withFamily (other : Bytes) :
    (s.withFamily name).disk.families[other]? =
      if other = name then some (s.disk.families[name]?.getD ∅) else s.disk.families[other]? := by
  unfold withFamily
  split_ifs with hmem hother hother
  · obtain rfl := hother
    obtain ⟨family, hfamily⟩ :=
      Option.isSome_iff_exists.mp (Std.ExtTreeMap.isSome_getElem?_iff_mem.mpr hmem)
    simp [hfamily]
  · rfl
  · obtain rfl := hother
    have hnone := Std.ExtTreeMap.getElem?_eq_none hmem
    simp [setFamily, hnone]
  · simp [setFamily, Std.ExtTreeMap.getElem?_insert, Ne.symm hother]

theorem getElem?_eraseFamily (other : Bytes) :
    (s.eraseFamily name).disk.families[other]? =
      if other = name then none else s.disk.families[other]? := by
  rw [eraseFamily, Std.ExtTreeMap.getElem?_erase]
  simp only [Std.LawfulEqCmp.compare_eq_iff_eq, eq_comm (b := other)]

end Simp

/-- The store without a family of this name. -/
def withoutFamily (s : Store) (name : Bytes) : Store :=
  if name ∈ s.disk.families then s.eraseFamily name else s

@[simp] theorem tables_withoutFamily (s : Store) (name : Bytes) :
    (s.withoutFamily name).tables = s.tables := by
  unfold withoutFamily; split_ifs <;> rfl

@[simp] theorem schema_withoutFamily (s : Store) (name : Bytes) :
    (s.withoutFamily name).disk.schema = s.disk.schema := by
  unfold withoutFamily; split_ifs <;> rfl

theorem getElem?_withoutFamily (s : Store) (name other : Bytes) :
    (s.withoutFamily name).disk.families[other]? =
      if other = name then none else s.disk.families[other]? := by
  unfold withoutFamily
  split_ifs with hmem hother hother
  · rw [getElem?_eraseFamily, if_pos hother]
  · rw [getElem?_eraseFamily, if_neg hother]
  · rw [hother, Std.ExtTreeMap.getElem?_eq_none hmem]
  · rfl

theorem mem_withFamily {s : Store} {name other : Bytes} :
    other ∈ (s.withFamily name).disk.families ↔ other = name ∨ other ∈ s.disk.families := by
  rw [← Std.ExtTreeMap.isSome_getElem?_iff_mem, getElem?_withFamily,
    ← Std.ExtTreeMap.isSome_getElem?_iff_mem]
  split_ifs with h <;> simp [h]

theorem mem_withoutFamily {s : Store} {name other : Bytes} :
    other ∈ (s.withoutFamily name).disk.families ↔ other ≠ name ∧ other ∈ s.disk.families := by
  rw [← Std.ExtTreeMap.isSome_getElem?_iff_mem, getElem?_withoutFamily,
    ← Std.ExtTreeMap.isSome_getElem?_iff_mem]
  split_ifs with h <;> simp [h]

/-- A call that is checked either goes through or throws and changes nothing. -/
theorem check_cases (status : Status) (what : Bytes) (s : Store) :
    (status = .ok ∧ check status what s = .ok () s) ∨
      (status ≠ .ok ∧ ∃ e, check status what s = .error e s) := by
  cases status with
  | ok => exact Or.inl ⟨rfl, rfl⟩
  | stalled text => exact Or.inr ⟨by simp, _, rfl⟩
  | failed text => exact Or.inr ⟨by simp, _, rfl⟩

/-- The call a change of the schema makes of the database goes through, where it makes one. -/
def AltersFamily (db : Database) (s : Store) (change : Schema.Change) : Prop :=
  if change.live then change.name ∈ s.disk.families ∨ db.createFamily change.name = .ok
  else change.name ∉ s.disk.families ∨ dropStatus db change.name = .ok

instance (db : Database) (s : Store) (change : Schema.Change) :
    Decidable (AltersFamily db s change) :=
  inferInstanceAs (Decidable (if change.live then
    change.name ∈ s.disk.families ∨ db.createFamily change.name = .ok
    else change.name ∉ s.disk.families ∨ dropStatus db change.name = .ok))

/-- Where the database carries out what it is asked, the one family that is not altered is the
default one, which is never dropped. -/
theorem altersFamily_sound_iff {s : Store} (h : defaultFamily ∈ s.disk.families)
    (change : Schema.Change) : ¬AltersFamily {} s change ↔ change = ⟨defaultFamily, false⟩ := by
  obtain ⟨name, live⟩ := change
  unfold AltersFamily
  cases live with
  | true => simp
  | false =>
    by_cases hname : name = defaultFamily
    · subst hname
      simp [h, dropStatus]
    · simp [dropStatus, hname]

theorem openFamily_cases (db : Database) (name : Bytes) (s : Store) :
    (AltersFamily db s ⟨name, true⟩ ∧ openFamily db name s = .ok () (s.withFamily name)) ∨
      (¬AltersFamily db s ⟨name, true⟩ ∧ ∃ e, openFamily db name s = .error e s) := by
  simp only [openFamily, run_bind_get, withFamily, AltersFamily, if_true]
  split_ifs with hmem
  · exact Or.inl ⟨Or.inl hmem, rfl⟩
  · rw [run_bind]
    rcases check_cases (db.createFamily name)
      (ascii "Creating table \"" ++ name ++ ascii "\"") s with ⟨hok, h⟩ | ⟨hne, e, h⟩
    · rw [h]
      exact Or.inl ⟨Or.inr hok, rfl⟩
    · rw [h]
      exact Or.inr ⟨not_or.mpr ⟨hmem, hne⟩, e, rfl⟩

theorem dropFamily_cases (db : Database) (name : Bytes) (s : Store) :
    (AltersFamily db s ⟨name, false⟩ ∧ dropFamily db name s = .ok () (s.withoutFamily name)) ∨
      (¬AltersFamily db s ⟨name, false⟩ ∧ ∃ e, dropFamily db name s = .error e s) := by
  simp only [dropFamily, run_bind_get, withoutFamily, AltersFamily, Bool.false_eq_true, if_false]
  split_ifs with hmem
  · rw [run_bind]
    rcases check_cases (dropStatus db name)
      (ascii "Dropping table \"" ++ name ++ ascii "\"") s with ⟨hok, h⟩ | ⟨hne, e, h⟩
    · rw [h]
      exact Or.inl ⟨Or.inr hok, rfl⟩
    · rw [h]
      exact Or.inr ⟨not_or.mpr ⟨not_not.mpr hmem, hne⟩, e, rfl⟩
  · exact Or.inl ⟨Or.inl hmem, rfl⟩

/-! ### The operations -/

/-- Creating a table goes through, or stops before it has done anything, or stops with the table in
memory and its record not written. -/
theorem createTable_cases (db : Database) (table : Table) (stamp : Version) (s : Store) :
    let made := (s.withFamily table.name).setTables (s.tables.create table stamp)
    (AltersFamily db s ⟨table.name, true⟩ ∧ db.putSchema = .ok ∧
        createTable J db table stamp s = .ok () (made.writeDown J)) ∨
      (¬AltersFamily db s ⟨table.name, true⟩ ∧ ∃ e, createTable J db table stamp s = .error e s) ∨
      (AltersFamily db s ⟨table.name, true⟩ ∧ db.putSchema ≠ .ok ∧
        ∃ e, createTable J db table stamp s = .error e made) := by
  intro made
  rcases openFamily_cases db table.name s with ⟨halters, hopen⟩ | ⟨hfails, e, hopen⟩
  · have hrun : createTable J db table stamp s = writeTables J db made := by
      rw [createTable, run_bind, hopen]
      simp only [run_bind_modify, tables_withFamily]
      rfl
    rw [hrun, writeTables, run_bind]
    rcases check_cases db.putSchema (ascii "Writing the schema") made with ⟨hok, h⟩ | ⟨hne, e, h⟩
    · rw [h]
      exact Or.inl ⟨halters, hok, rfl⟩
    · rw [h]
      exact Or.inr (Or.inr ⟨halters, hne, e, rfl⟩)
  · refine Or.inr (Or.inl ⟨hfails, e, ?_⟩)
    rw [createTable, run_bind, hopen]

/-- Deleting a table goes through, or stops before it has done anything, or stops with the tombstone
in memory and its record not written. -/
theorem deleteTable_cases (db : Database) (name : Bytes) (stamp : Version) (s : Store) :
    let gone := (s.withoutFamily name).setTables (s.tables.remove name stamp)
    (AltersFamily db s ⟨name, false⟩ ∧ db.putSchema = .ok ∧
        deleteTable J db name stamp s = .ok () (gone.writeDown J)) ∨
      (¬AltersFamily db s ⟨name, false⟩ ∧ ∃ e, deleteTable J db name stamp s = .error e s) ∨
      (AltersFamily db s ⟨name, false⟩ ∧ db.putSchema ≠ .ok ∧
        ∃ e, deleteTable J db name stamp s = .error e gone) := by
  intro gone
  rcases dropFamily_cases db name s with ⟨halters, hdrop⟩ | ⟨hfails, e, hdrop⟩
  · have hrun : deleteTable J db name stamp s = writeTables J db gone := by
      rw [deleteTable, run_bind, hdrop]
      simp only [run_bind_modify]
      rw [show (s.withoutFamily name).tables = s.tables from tables_withoutFamily s name]
      rfl
    rw [hrun, writeTables, run_bind]
    rcases check_cases db.putSchema (ascii "Writing the schema") gone with ⟨hok, h⟩ | ⟨hne, e, h⟩
    · rw [h]
      exact Or.inl ⟨halters, hok, rfl⟩
    · rw [h]
      exact Or.inr (Or.inr ⟨halters, hne, e, rfl⟩)
  · refine Or.inr (Or.inl ⟨hfails, e, ?_⟩)
    rw [deleteTable, run_bind, hdrop]

/-! ### Merging -/

/-- A change of the schema carried through to the families. -/
def altered (s : Store) (change : Schema.Change) : Store :=
  if change.live then s.withFamily change.name else s.withoutFamily change.name

theorem altered_eq (change : Schema.Change) (s : Store) :
    ∃ families, s.altered change = s.withFamilies families := by
  unfold altered withFamily withoutFamily
  split_ifs <;> exact ⟨_, rfl⟩

theorem getElem?_altered (s : Store) (change : Schema.Change) (other : Bytes) :
    (s.altered change).disk.families[other]? =
      if other = change.name then
        if change.live then some (s.disk.families[other]?.getD ∅) else none
      else s.disk.families[other]? := by
  unfold altered
  split_ifs with hlive hother hother
  · rw [getElem?_withFamily, if_pos hother, hother]
  · rw [getElem?_withFamily, if_neg hother]
  · rw [getElem?_withoutFamily, if_pos hother]
  · rw [getElem?_withoutFamily, if_neg hother]

theorem mem_altered_of_ne {s : Store} {change : Schema.Change} {other : Bytes}
    (h : other ≠ change.name) :
    other ∈ (s.altered change).disk.families ↔ other ∈ s.disk.families := by
  rw [← Std.ExtTreeMap.isSome_getElem?_iff_mem, getElem?_altered, if_neg h,
    Std.ExtTreeMap.isSome_getElem?_iff_mem]

theorem alterFamily_cases (db : Database) (change : Schema.Change) (s : Store) :
    (AltersFamily db s change ∧ alterFamily db change s = .ok () (s.altered change)) ∨
      (¬AltersFamily db s change ∧ ∃ e, alterFamily db change s = .error e s) := by
  obtain ⟨name, live⟩ := change
  cases live with
  | true => exact openFamily_cases db name s
  | false => exact dropFamily_cases db name s

/-- The families a merge alters, one after another: they are altered as the changes say, or one of
the calls fails and those after it are not made. -/
theorem forM_alterFamily_cases (db : Database) (changes : List Schema.Change)
    (hnodup : (changes.map Schema.Change.name).Nodup) (s : Store) :
    ((∀ change ∈ changes, AltersFamily db s change) ∧
        changes.forM (alterFamily db) s = .ok () (changes.foldl altered s)) ∨
      ((∃ change ∈ changes, ¬AltersFamily db s change) ∧
        ∃ e families, changes.forM (alterFamily db) s = .error e (s.withFamilies families)) := by
  induction changes generalizing s with
  | nil => exact Or.inl ⟨by simp, rfl⟩
  | cons change changes ih =>
    rw [List.map_cons, List.nodup_cons] at hnodup
    -- no later change is of this family, so each finds its own as it was at the start
    have hlater : ∀ later ∈ changes,
        (AltersFamily db (s.altered change) later ↔ AltersFamily db s later) := by
      intro later hmem
      have hne : later.name ≠ change.name := fun h =>
        hnodup.1 (List.mem_map.mpr ⟨later, hmem, h⟩)
      simp only [AltersFamily, mem_altered_of_ne hne]
    rw [run_forM_cons]
    rcases alterFamily_cases db change s with ⟨hok, h⟩ | ⟨hfail, e, h⟩
    · rw [h]
      rcases ih hnodup.2 (s.altered change) with
        ⟨hall, hrun⟩ | ⟨⟨later, hmem, hno⟩, e, families, hrun⟩
      · refine Or.inl ⟨?_, hrun⟩
        rintro other (_ | ⟨_, hother⟩)
        · exact hok
        · exact (hlater other hother).mp (hall other hother)
      · obtain ⟨families', hsame⟩ := altered_eq change s
        refine Or.inr ⟨⟨later, List.mem_cons_of_mem _ hmem, ?_⟩, e, families, ?_⟩
        · rwa [← hlater later hmem]
        · exact hrun.trans (by rw [hsame]; rfl)
    · rw [h]
      exact Or.inr ⟨⟨change, List.mem_cons_self, hfail⟩, e, s.disk.families, rfl⟩

/-- Altering families alters nothing but families. -/
theorem foldl_altered_eq (changes : List Schema.Change) (s : Store) :
    ∃ families, changes.foldl altered s = s.withFamilies families := by
  induction changes generalizing s with
  | nil => exact ⟨s.disk.families, rfl⟩
  | cons change changes ih =>
    obtain ⟨families, h⟩ := altered_eq change s
    obtain ⟨families', h'⟩ := ih (s.altered change)
    exact ⟨families', by rw [List.foldl_cons, h', h]; rfl⟩

@[simp] theorem tables_foldl_altered (changes : List Schema.Change) (s : Store) :
    (changes.foldl altered s).tables = s.tables := by
  obtain ⟨families, h⟩ := foldl_altered_eq changes s
  rw [h]
  rfl

@[simp] theorem schema_foldl_altered (changes : List Schema.Change) (s : Store) :
    (changes.foldl altered s).disk.schema = s.disk.schema := by
  obtain ⟨families, h⟩ := foldl_altered_eq changes s
  rw [h]
  rfl

theorem getElem?_foldl_altered (changes : List Schema.Change)
    (hnodup : (changes.map Schema.Change.name).Nodup) (s : Store) (name : Bytes) :
    (changes.foldl altered s).disk.families[name]? =
      match changes.find? (·.name = name) with
      | none => s.disk.families[name]?
      | some change => if change.live then some (s.disk.families[name]?.getD ∅) else none := by
  refine (Maps.look_foldl_list Schema.Change.name
    (fun (s : Store) (name : Bytes) => s.disk.families[name]?) altered
    (fun change held => if change.live then some (held.getD ∅) else none) changes ?_ ?_ s hnodup
    name).trans ?_
  · intro s change _
    rw [getElem?_altered, if_pos rfl]
  · intro s change _ other hne
    rw [getElem?_altered, if_neg hne]
  · cases changes.find? (·.name = name) <;> rfl

/-- Merging a schema goes through, or a family's call fails with the schema merged in memory alone,
or its record is not written. -/
theorem mergeSchema_cases (db : Database) (named : Schema) (s : Store) :
    let merged := s.tables.merge named
    let taken := s.setTables merged.1
    (((∀ change ∈ merged.2, AltersFamily db s change) ∧ db.putSchema = .ok) ∧
        mergeSchema J db named s =
          .ok merged.2.length ((merged.2.foldl altered taken).writeDown J)) ∨
      ((∃ change ∈ merged.2, ¬AltersFamily db s change) ∧
        ∃ e families, mergeSchema J db named s = .error e (taken.withFamilies families)) ∨
      (((∀ change ∈ merged.2, AltersFamily db s change) ∧ db.putSchema ≠ .ok) ∧
        ∃ e, mergeSchema J db named s = .error e (merged.2.foldl altered taken)) := by
  intro merged taken
  have hnodup : (merged.2.map Schema.Change.name).Nodup := Schema.nodup_changes s.tables named
  have hrun : mergeSchema J db named s =
      (merged.2.forM (alterFamily db) >>= fun _ =>
        writeTables J db >>= fun _ => pure merged.2.length) taken := rfl
  rw [hrun, run_bind]
  rcases forM_alterFamily_cases db merged.2 hnodup taken with ⟨hall, h⟩ | ⟨hfail, e, families, h⟩
  · rw [h]
    simp only [writeTables, run_bind]
    rcases check_cases db.putSchema (ascii "Writing the schema") (merged.2.foldl altered taken) with
      ⟨hok, hput⟩ | ⟨hne, e, hput⟩
    · rw [hput]
      exact Or.inl ⟨⟨hall, hok⟩, rfl⟩
    · rw [hput]
      exact Or.inr (Or.inr ⟨⟨hall, hne⟩, e, rfl⟩)
  · rw [h]
    exact Or.inr (Or.inl ⟨hfail, e, families, rfl⟩)

/-! ### Counts -/

/-- Two stores hold the same tables: in memory, as families, and in the record. -/
structure SameTables (s t : Store) : Prop where
  tables : s.tables = t.tables
  families : s.disk.families = t.disk.families
  schema : s.disk.schema = t.disk.schema

theorem SameTables.refl (s : Store) : s.SameTables s := ⟨rfl, rfl, rfl⟩

theorem keeps_check {I : Store → Prop} (status : Status) (what : Bytes) :
    Keeps I (check status what) := by
  intro s h
  rcases check_cases status what s with ⟨-, hrun⟩ | ⟨-, e, hrun⟩
  · rwa [hrun]
  · rwa [hrun]

/-- Taking a count changes nothing about the tables. -/
theorem sameTables_nextCount (db : Database) (s : Store) :
    (after (nextCount db s)).SameTables s := by
  have hreserve : Keeps (fun t : Store => t.SameTables s) (reserveCounts db) := by
    refine Keeps.get_bind fun t ht => ?_
    refine Keeps.bind (I := fun t : Store => t.SameTables s) (keeps_check _ _) ?_ t ht
    exact fun _ _ _ => ⟨ht.tables, ht.families, ht.schema⟩
  have htake : Keeps (fun t : Store => t.SameTables s)
      (do modify fun t => { t with counts := (t.counts + 1) % 2 ^ 64 }
          let t ← get
          pure t.counts : Action ℕ) :=
    fun _ ht => ⟨ht.tables, ht.families, ht.schema⟩
  have hnext : Keeps (fun t : Store => t.SameTables s) (nextCount db) := by
    refine Keeps.get_bind fun t ht => ?_
    exact Keeps.ite (Keeps.bind hreserve fun _ => htake) htake t ht
  exact hnext s (SameTables.refl s)

/-! ### Keys as they are held -/

theorem partitionPrefix_eq {partition : ℕ} (h : partition < 256) :
    partitionPrefix partition = [0, UInt8.ofNat partition] := by
  have hhigh : partition >>> 8 = 0 := by
    rw [Nat.shiftRight_eq_div_pow]
    omega
  have hlow : partition &&& 0xff = partition := by
    rw [show (0xff : ℕ) = 2 ^ 8 - 1 by norm_num, Nat.and_two_pow_sub_one_eq_mod]
    omega
  rw [partitionPrefix, hhigh, hlow]
  rfl

/-- A key is held behind its partition, which is a byte. -/
theorem storeKey_eq (key : Bytes) : storeKey key = 0 :: UInt8.ofNat (partitionOf key) :: key := by
  rw [storeKey, partitionPrefix_eq (partitionOf key).isLt]
  rfl

theorem partitionHeld_storeKey (key : Bytes) : partitionHeld (storeKey key) = partitionOf key := by
  have hlt : (partitionOf key : ℕ) < 256 := (partitionOf key).isLt
  rw [storeKey_eq, partitionHeld, UInt8.toNat_ofNat']
  simp only [UInt8.toNat_zero, Nat.zero_shiftLeft, Nat.zero_or]
  omega

@[simp] theorem composedKey_storeKey (key : Bytes) : composedKey (storeKey key) = key := by
  rw [storeKey_eq, composedKey, if_neg (by simp)]
  rfl

theorem storeKey_injective : Function.Injective storeKey := fun key other heq => by
  rw [← composedKey_storeKey key, heq, composedKey_storeKey]

/-! ### Writing a record -/

/-- The store once a record was written into a family of it. -/
def written (s : Store) (name : Bytes) (family : Family) (record : Record) : Store :=
  let t := s.setFamily name
    (family.insert (storeKey record.key) (Record.composeValue record.stamp record.value))
  if record.stamp.term ≤ s.terms (partitionOf record.key) then t
  else t.raiseTerm (partitionOf record.key) record.stamp.term

/-- **What writing a record does**: nothing where it throws or where what is held is newer, and
otherwise the record stands, in a term its partition stands at. -/
theorem writeRecord_cases (db : Database) (name : Bytes) (record : Record) (s : Store) :
    (∃ e, writeRecord db name record s = .error e s) ∨
      ∃ family, s.disk.families[name]? = some family ∧
        ((family[storeKey record.key]?.any
              (Record.isNewer · (Record.composeValue record.stamp record.value)) = true ∧
            writeRecord db name record s = .ok () s) ∨
          (family[storeKey record.key]?.any
              (Record.isNewer · (Record.composeValue record.stamp record.value)) = false ∧
            writeRecord db name record s = .ok () (s.written name family record))) := by
  unfold writeRecord
  rw [run_bind]
  cases hfamily : s.disk.families[name]? with
  | none =>
    have hhandle : ∃ e, tableHandle name s = .error e s := by
      refine ⟨⟨.tableNotFound, ascii "No table named \"" ++ name ++ ascii "\"."⟩, ?_⟩
      rw [tableHandle, run_bind_get, hfamily]
      rfl
    obtain ⟨e, he⟩ := hhandle
    rw [he]
    exact Or.inl ⟨e, rfl⟩
  | some family =>
    have hhandle : tableHandle name s = .ok family s := by
      rw [tableHandle, run_bind_get, hfamily]
      rfl
    rw [hhandle]
    dsimp only
    rw [run_bind]
    rcases check_cases db.getRecord (ascii "Writing a record to \"" ++ name ++ ascii "\"") s with
      ⟨-, h⟩ | ⟨-, e, h⟩
    · rw [h]
      dsimp only
      cases hnewer : family[storeKey record.key]?.any
          (Record.isNewer · (Record.composeValue record.stamp record.value)) with
      | true => exact Or.inr ⟨family, rfl, Or.inl ⟨hnewer, rfl⟩⟩
      | false =>
        simp only [Bool.false_eq_true, if_false]
        rw [run_bind]
        rcases check_cases db.write (ascii "Writing a record to \"" ++ name ++ ascii "\"") s with
          ⟨-, h⟩ | ⟨-, e, h⟩
        · rw [h]
          refine Or.inr ⟨family, rfl, Or.inr ⟨hnewer, ?_⟩⟩
          dsimp only
          rw [run_bind_modify, run_bind_get, written]
          split_ifs <;> first | rfl | contradiction
        · rw [h]
          exact Or.inl ⟨e, rfl⟩
    · rw [h]
      exact Or.inl ⟨e, rfl⟩

@[simp] theorem tables_written (s : Store) (name : Bytes) (family : Family) (record : Record) :
    (s.written name family record).tables = s.tables := by
  unfold written; split_ifs <;> rfl

@[simp] theorem schema_written (s : Store) (name : Bytes) (family : Family) (record : Record) :
    (s.written name family record).disk.schema = s.disk.schema := by
  unfold written; split_ifs <;> rfl

theorem families_written (s : Store) (name : Bytes) (family : Family) (record : Record) :
    (s.written name family record).disk.families = s.disk.families.insert name
      (family.insert (storeKey record.key) (Record.composeValue record.stamp record.value)) := by
  unfold written; split_ifs <;> rfl

/-- Where the database carries out what it is asked, a record is written into a family there is
unless what is held is newer. -/
theorem writeRecord_eq {name : Bytes} {family : Family} {s : Store}
    (hfamily : s.disk.families[name]? = some family) (record : Record) :
    writeRecord {} name record s = .ok ()
      (if family[storeKey record.key]?.any
          (Record.isNewer · (Record.composeValue record.stamp record.value)) then s
        else s.written name family record) := by
  have hhandle : tableHandle name s = .ok family s := by
    rw [tableHandle, run_bind_get, hfamily]
    rfl
  have hcheck : ∀ what, check .ok what s = .ok () s := fun _ => rfl
  unfold writeRecord
  rw [run_bind, hhandle]
  dsimp only
  rw [run_bind, hcheck]
  dsimp only
  split_ifs with hnewer
  · rfl
  · rw [run_bind, hcheck]
    dsimp only
    rw [run_bind_modify, run_bind_get, written]
    split_ifs <;> first | rfl | contradiction

/-- A record is not written into a family there is not. -/
theorem after_writeRecord_of_none {db : Database} {name : Bytes} {s : Store}
    (hfamily : s.disk.families[name]? = none) (record : Record) :
    after (writeRecord db name record s) = s := by
  rcases writeRecord_cases db name record s with ⟨e, hrun⟩ | ⟨family, hsome, -⟩
  · rw [hrun]
    rfl
  · rw [hfamily] at hsome
    cases hsome

/-! ### Files and batches -/

/-- An ingested record is one of the file's or was there. -/
theorem mem_of_getElem?_ingest {file : List Carried} {family : Family} {key value : Bytes}
    (h : (ingest family file)[key]? = some value) :
    (key, value) ∈ file ∨ family[key]? = some value := by
  induction file generalizing family with
  | nil => exact Or.inr h
  | cons carried file ih =>
    rcases ih h with hmem | hinsert
    · exact Or.inl (List.mem_cons_of_mem _ hmem)
    · rw [Std.ExtTreeMap.getElem?_insert] at hinsert
      split_ifs at hinsert with hkey
      · obtain rfl := Std.LawfulEqCmp.eq_of_compare hkey
        obtain rfl := Option.some.inj hinsert
        exact Or.inl List.mem_cons_self
      · exact Or.inr hinsert

/-- A key that is held is held once a file was ingested. -/
theorem mem_ingest_of_mem {family : Family} {key : Bytes} (hmem : key ∈ family)
    (file : List Carried) : key ∈ ingest family file := by
  induction file generalizing family with
  | nil => exact hmem
  | cons carried file ih => exact ih (Std.ExtTreeMap.mem_insert.mpr (Or.inr hmem))

/-- What a family holds once a file that has each key once was ingested. -/
theorem getElem?_ingest {file : List Carried} (hfile : (file.map Prod.fst).Nodup) (family : Family)
    (key : Bytes) : (ingest family file)[key]? =
      match file.find? (·.1 = key) with
      | none => family[key]?
      | some carried => some carried.2 := by
  refine (Maps.look_foldl_list Prod.fst (fun (family : Family) (key : Bytes) => family[key]?)
    (fun family carried => family.insert carried.1 carried.2) (fun carried _ => some carried.2) file
    ?_ ?_ family hfile key).trans ?_
  · exact fun _ _ _ => Std.ExtTreeMap.getElem?_insert_self
  · intro _ _ _ other hother
    rw [Std.ExtTreeMap.getElem?_insert,
      if_neg fun heq => hother (Std.LawfulEqCmp.eq_of_compare heq).symm]
  · cases file.find? (·.1 = key) <;> rfl

theorem getElem?_eraseAll (family : Family) (keys : List Bytes) (key : Bytes) :
    (eraseAll family keys)[key]? = if key ∈ keys then none else family[key]? := by
  induction keys generalizing family with
  | nil => rfl
  | cons other keys ih =>
    change (eraseAll (family.erase other) keys)[key]? = _
    rw [ih, Std.ExtTreeMap.getElem?_erase]
    simp only [Std.LawfulEqCmp.compare_eq_iff_eq, List.mem_cons, eq_comm (a := key)]
    by_cases hother : other = key
    · simp [hother]
    · simp [hother]

/-! ### The terms of a store -/

/-- The terms in memory are those of the disk, and none is negative. -/
structure TermsKept (s : Store) : Prop where
  nonneg : ∀ partition, 0 ≤ s.terms partition
  onDisk : ∀ partition, (s.disk.terms partition).getD 0 = s.terms partition

theorem TermsKept.of_terms {s t : Store} (h : s.TermsKept) (hmem : t.terms = s.terms)
    (hdisk : t.disk.terms = s.disk.terms) : t.TermsKept where
  nonneg partition := by rw [hmem]; exact h.nonneg partition
  onDisk partition := by rw [hmem, hdisk]; exact h.onDisk partition

theorem TermsKept.raiseTerm {s : Store} (h : s.TermsKept) {partition : Partition} {term : ℤ}
    (hlt : s.terms partition < term) : (s.raiseTerm partition term).TermsKept := by
  have hnonneg := h.nonneg partition
  constructor
  all_goals
    intro other
    unfold Store.raiseTerm
    by_cases heq : other = partition
    · subst heq
      simp only [Function.update_self, Option.getD_some]
      try omega
    · simp only [Function.update_of_ne heq]
      first | exact h.nonneg other | exact h.onDisk other

theorem TermsKept.terms_raisedTo {s : Store} (h : s.TermsKept) (carried : PartitionTerms)
    (partition : Partition) :
    (s.raisedTo carried).terms partition = max (s.terms partition) (carried partition) := by
  have hnonneg := h.nonneg partition
  unfold Store.raisedTo
  dsimp only
  split_ifs with hlt
  · exact (max_eq_right hlt.1.le).symm
  · rw [max_eq_left]
    by_contra hle
    exact hlt ⟨not_le.mp hle, hnonneg.trans_lt (not_le.mp hle)⟩

theorem TermsKept.raisedTo {s : Store} (h : s.TermsKept) (carried : PartitionTerms) :
    (s.raisedTo carried).TermsKept where
  nonneg partition := by
    rw [h.terms_raisedTo]
    exact (h.nonneg partition).trans (le_max_left _ _)
  onDisk partition := by
    rw [h.terms_raisedTo]
    unfold Store.raisedTo
    dsimp only
    split_ifs with hlt
    · exact (max_eq_right hlt.le).symm
    · rw [max_eq_left (not_lt.mp hlt), h.onDisk]

/-! ### Importing a file -/

theorem raiseTerms_eq (carried : PartitionTerms) (what : Bytes) (s : Store) :
    raiseTerms {} carried what s = .ok () (s.raisedTo carried) := by
  unfold raiseTerms
  rw [run_bind_get]
  split_ifs with hnone
  · have hsame : s.raisedTo carried = s := by
      have hterms : ∀ partition, ¬s.terms partition < carried partition := fun partition =>
        not_lt.mpr (hnone partition)
      simp [raisedTo, hterms]
    rw [hsame]
    rfl
  · rfl

theorem ingest_filter_of_forall {family : Family} {file : List Carried}
    (h : ∀ carried ∈ file, carried.1 ∉ family) : file.filter (takes family) = file := by
  rw [List.filter_eq_self]
  intro carried hmem
  simp [takes, Std.ExtTreeMap.getElem?_eq_none (h carried hmem)]

/-- **What importing a file does**, where the database carries out what it is asked: the terms it
carries are raised, and its records that are newer than what is held are ingested. -/
theorem importRecords_eq {name : Bytes} {family : Family} {s : Store} {file : List Carried}
    (hfile : file ≠ []) (hfamily : s.disk.families[name]? = some family) :
    ∃ families, importRecords {} name file s =
        .ok (file.filter (takes family)).length
          ((s.raisedTo (carriedTerms file)).withFamilies families) ∧
      ∀ other, families[other]? = if other = name then
        some (ingest family (file.filter (takes family))) else s.disk.families[other]? := by
  have hhandle : tableHandle name s = .ok family s := by
    rw [tableHandle, run_bind_get, hfamily]
    rfl
  have hhandle' : tableHandle name (s.raisedTo (carriedTerms file)) =
      .ok family (s.raisedTo (carriedTerms file)) := by
    rw [tableHandle, run_bind_get]
    simp only [raisedTo, hfamily]
    rfl
  have hcheck : ∀ what (t : Store), check .ok what t = .ok () t := fun _ _ => rfl
  have hread : ∀ what, readFile {} what s = .ok () s := fun _ => rfl
  -- a family that is set to what it was is the family it was
  have hkeep : file.filter (takes family) = [] →
      ∀ other : Bytes, s.disk.families[other]? = if other = name then
        some (ingest family (file.filter (takes family))) else s.disk.families[other]? := by
    intro hnone other
    split_ifs with hother
    · rw [hother, hfamily, hnone]
      rfl
    · rfl
  have hset : ∀ other : Bytes,
      (s.disk.families.insert name (ingest family (file.filter (takes family))))[other]? =
        if other = name then some (ingest family (file.filter (takes family)))
        else s.disk.families[other]? := by
    intro other
    rw [Std.ExtTreeMap.getElem?_insert]
    simp only [Std.LawfulEqCmp.compare_eq_iff_eq, eq_comm (b := other)]
  unfold importRecords
  rw [if_neg hfile, run_bind, hhandle]
  dsimp only
  rw [run_bind, hread]
  dsimp only
  rw [run_bind, raiseTerms_eq]
  dsimp only
  split_ifs with hrecords hheld
  · rw [hrecords]
    exact ⟨s.disk.families, rfl, hkeep (List.eq_nil_of_length_eq_zero hrecords)⟩
  · have hall : file.filter (takes family) = file := by
      refine ingest_filter_of_forall fun carried hmem => ?_
      simpa using List.all_eq_true.mp hheld carried hmem
    rw [run_bind, hcheck]
    rw [hall] at hset ⊢
    exact ⟨_, rfl, hset⟩
  · rw [run_bind, hhandle']
    dsimp only
    split_ifs with hkept
    · exact ⟨s.disk.families, by rw [hkept]; rfl, hkeep hkept⟩
    · rw [run_bind, hcheck]
      exact ⟨_, rfl, hset⟩

/-- What clearing the records of a file does, where the database carries out what it is asked. -/
theorem clearRecords_eq {name : Bytes} {family : Family} {s : Store} {file : List Carried}
    (hfile : file ≠ []) (hfamily : s.disk.families[name]? = some family) :
    (after (clearRecords {} name file s)).disk.families[name]? =
      some (eraseAll family ((file.filter (clears family)).map Prod.fst)) := by
  have hhandle : tableHandle name s = .ok family s := by
    rw [tableHandle, run_bind_get, hfamily]
    rfl
  have hread : ∀ what, readFile {} what s = .ok () s := fun _ => rfl
  have hcheck : ∀ what (t : Store), check .ok what t = .ok () t := fun _ _ => rfl
  unfold clearRecords
  rw [if_neg hfile, run_bind, hhandle]
  dsimp only
  rw [run_bind, hread]
  dsimp only
  split_ifs with hnone
  · rw [hnone]
    exact hfamily
  · rw [run_bind, hcheck]
    exact Std.ExtTreeMap.getElem?_insert_self

/-- A file is not imported into a family there is not. -/
theorem after_importRecords_of_none {db : Database} {name : Bytes} {s : Store}
    (hfamily : s.disk.families[name]? = none) (file : List Carried) :
    after (importRecords db name file s) = s := by
  unfold importRecords
  split_ifs
  · rfl
  · rw [run_bind, tableHandle, run_bind_get, hfamily]
    rfl

/-! ### Opening -/

theorem forM_dropFamily_eq (db : Database) (names : List Bytes) (s : Store) :
    names.forM (dropFamily db) s =
      (names.map fun name => Schema.Change.mk name false).forM (alterFamily db) s := by
  induction names generalizing s with
  | nil => rfl
  | cons name names ih =>
    rw [List.map_cons, run_forM_cons, run_forM_cons]
    simp only [alterFamily, Bool.false_eq_true, if_false, ih]

theorem forM_openFamily_eq (db : Database) (names : List Bytes) (s : Store) :
    names.forM (openFamily db) s =
      (names.map fun name => Schema.Change.mk name true).forM (alterFamily db) s := by
  induction names generalizing s with
  | nil => rfl
  | cons name names ih =>
    rw [List.map_cons, run_forM_cons, run_forM_cons]
    simp only [alterFamily, if_true, ih]

theorem find?_map_change (names : List Bytes) (live : Bool) (name : Bytes) :
    (names.map fun name => Schema.Change.mk name live).find? (·.name = name) =
      if name ∈ names then some ⟨name, live⟩ else none := by
  induction names with
  | nil => rfl
  | cons other names ih =>
    rw [List.map_cons]
    by_cases h : other = name
    · subst h
      rw [List.find?_cons_of_pos (by simp), if_pos List.mem_cons_self]
    · rw [List.find?_cons_of_neg (by simpa using h), ih]
      simp [Ne.symm h]

theorem mem_orphans {s : Store} {name : Bytes} :
    name ∈ s.orphans ↔ name ∈ s.disk.families ∧ name ≠ defaultFamily ∧ ¬s.tables.has name := by
  simp only [orphans, List.mem_filter, decide_eq_true_eq, Schema.mem_names_iff,
    Maps.mem_keys_toList_iff]

/-- What opening a disk gives, where every call of the database goes through: the schema its record
holds, and a family for each table of it. -/
theorem openStore_eq (disk : Disk) :
    ∃ families : Std.ExtTreeMap Bytes Family,
      openStore J {} disk = .ok ()
        { disk := { disk with families }
          tables := readSchemaRecord J disk
          terms := fun partition => (disk.terms partition).getD 0 } ∧
      ∀ name, families[name]? =
        if (readSchemaRecord J disk).has name then some (disk.families[name]?.getD ∅)
        else if name = defaultFamily then disk.families[name]? else none := by
  -- the store with its schema read, and as the two loops leave it
  let read : Store := { disk, tables := readSchemaRecord J disk }
  let dropped := (read.orphans.map fun name => Schema.Change.mk name false).foldl altered read
  let opened := (read.tables.names.map fun name => Schema.Change.mk name true).foldl altered dropped
  have hnames : ∀ (l : List Bytes) (live : Bool), l.Nodup →
      ((l.map fun name => Schema.Change.mk name live).map Schema.Change.name).Nodup := by
    intro l live hl
    simpa [Function.comp_def] using hl
  have horphans : read.orphans.Nodup := (Maps.nodup_keys_toList disk.families).filter _
  have hdrop : read.orphans.forM (dropFamily {}) read = .ok () dropped := by
    rw [forM_dropFamily_eq]
    rcases forM_alterFamily_cases {} _ (hnames _ false horphans) read with
      ⟨-, h⟩ | ⟨⟨c, hc, hno⟩, -⟩
    · exact h
    · obtain ⟨name, hname, rfl⟩ := List.mem_map.mp hc
      refine absurd (Or.inr ?_) hno
      rw [dropStatus, if_neg (mem_orphans.mp hname).2.1]
  have hopen : read.tables.names.forM (openFamily {}) dropped = .ok () opened := by
    rw [forM_openFamily_eq]
    rcases forM_alterFamily_cases {} _ (hnames _ true read.tables.nodup_names) dropped with
      ⟨-, h⟩ | ⟨⟨c, hc, hno⟩, -⟩
    · exact h
    · obtain ⟨name, -, rfl⟩ := List.mem_map.mp hc
      exact absurd (Or.inr rfl) hno
  obtain ⟨families₁, h₁⟩ := foldl_altered_eq
    (read.orphans.map fun name => Schema.Change.mk name false) read
  obtain ⟨families₂, h₂⟩ := foldl_altered_eq
    (read.tables.names.map fun name => Schema.Change.mk name true) dropped
  refine ⟨opened.disk.families, ?_, fun name => ?_⟩
  · have hread : readTables J {} { disk } =
        (read.orphans.forM (dropFamily {}) >>= fun _ => read.tables.names.forM (openFamily {}))
          read := rfl
    have hrun : readTables J {} { disk } = .ok () opened := by
      rw [hread, run_bind, hdrop]
      exact hopen
    have hload : openStore J {} disk = .ok () (loadTerms opened) := by
      rw [openStore, run_bind, hrun]
      rfl
    have hopened : opened = read.withFamilies opened.disk.families := by
      rw [show opened = dropped.withFamilies families₂ from h₂,
        show dropped = read.withFamilies families₁ from h₁]
      rfl
    rw [hload, hopened]
    rfl
  · have hopened := getElem?_foldl_altered _ (hnames _ true read.tables.nodup_names) dropped name
    have hdropped := getElem?_foldl_altered _ (hnames _ false horphans) read name
    rw [find?_map_change] at hopened hdropped
    simp only [Schema.mem_names_iff] at hopened
    simp only [mem_orphans] at hdropped
    rw [show opened.disk.families[name]? = _ from hopened]
    by_cases hhas : read.tables.has name = true
    · rw [if_pos hhas, if_pos hhas]
      rw [if_neg (by tauto)] at hdropped
      rw [show dropped.disk.families[name]? = _ from hdropped]
      rfl
    · rw [if_neg hhas, if_neg hhas]
      rw [show dropped.disk.families[name]? = _ from hdropped]
      by_cases hdefault : name = defaultFamily
      · rw [if_pos hdefault, if_neg (by tauto)]
      · rw [if_neg hdefault]
        split_ifs with horphan
        · rfl
        · have hmem : name ∉ disk.families := fun h => horphan ⟨h, hdefault, hhas⟩
          exact Std.ExtTreeMap.getElem?_eq_none hmem

end Store

end AsyncDatabase
