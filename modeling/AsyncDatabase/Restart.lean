import AsyncDatabase.Fence
import AsyncDatabase.Reopening

/-!
# What a restart remembers

The terms a router restores from a store, over every history of the store. A `Ledger` is what a
history did, said without the store: the operations that were carried out with their terms, and
which creates still stand. `Tracks` relates a store to its ledger, and `restores_iff` says of which
histories a restart forgets nothing.
-/

namespace AsyncDatabase

open Bytes (ascii)
open Machine Throwing

variable (J : JsonCodec)

/-- An operation carried out on a store: a record written, a file imported, and a table created or
deleted by a node that was told to. -/
inductive HistoryEvent where
  | write (name : Bytes) (record : Record)
  | imported (name : Bytes) (file : List Store.Carried)
  | create (table : Table) (stamp : Version)
  | delete (name : Bytes) (stamp : Version)

/-- The versions are ones of the machine's with no negative term, the schema's are ones its document
keeps, and a table that is created has a valid name and text in it. -/
def HistoryEvent.Valid : HistoryEvent → Prop
  | .write _ record => record.stamp.Fits ∧ 0 ≤ record.stamp.term
  | .imported _ file => ∀ carried ∈ file, 0 ≤ (Record.versionOf carried.2).term
  | .create table stamp =>
    Table.isValidName table.name = true ∧ table.utf8 = true ∧ stamp.Documented
  | .delete _ stamp => stamp.Documented

namespace Store

/-- A create that was ordered elsewhere: a table that stands already is left as it is. -/
def carryCreate (table : Table) (stamp : Version) (s : Store) : Store :=
  if s.tables.has table.name then s else after (createTable J {} table stamp s)

def historyStep (s : Store) : HistoryEvent → Store
  | .write name record => after (writeRecord {} name record s)
  | .imported name file => after (importRecords {} name file s)
  | .create table stamp => carryCreate J table stamp s
  | .delete name stamp => after (deleteTable J {} name stamp s)

end Store

/-- A create that is carried to a node does to its store what `carryCreate` does. -/
theorem Node.store_createOrdered {w : Seams} {request : Request} {name : Bytes} {body : Json}
    {n : Node} (hdb : w.db = {}) :
    (after (Node.createOrdered J w request name body { carried := true } n)).store =
      match Table.parseTable name body fun other => n.store.tables.tables.any (·.name = other) with
      | .error _ => n.store
      | .ok table => n.store.carryCreate J table ⟨request.term, request.count⟩ := by
  unfold Node.createOrdered
  rw [run_bind_get]
  cases hparse : Table.parseTable name body
      fun other => n.store.tables.tables.any (·.name = other) with
  | error refused => rfl
  | ok table =>
    dsimp only
    have hstamp : Node.schemaStamp w request { carried := true } n =
      .ok ⟨request.term, request.count⟩ n := rfl
    rw [run_bind, hstamp, Store.carryCreate, (Table.parseTable_ok hparse).1]
    dsimp only
    cases hread : n.store.tables.read name with
    | ok existing =>
      rw [if_pos (Schema.has_of_read hread)]
      dsimp only
      split_ifs <;> rfl
    | error missing =>
      rw [if_neg (by rw [Schema.has_eq_false_of_read hread]; simp), hdb]
      dsimp only
      rw [run_bind]
      rcases Node.carryOut_cases tablePartition request.term
        (Store.createTable J {} table ⟨request.term, request.count⟩) n with
        ⟨t, hx, h⟩ | ⟨e, t, hx, h⟩ <;> rw [h, hx] <;> rfl

/-! ### What a history did -/

/-- What a history did: the records written and imported with their partitions and terms, the terms
of the operations on tables, the tables that stand with the term each was created in, and whether a
name that is not text was deleted. -/
structure Ledger where
  records : List (Partition × ℤ) := []
  tableOps : List ℤ := []
  live : Bytes → Option (Table × ℤ) := fun _ => none
  garbled : Bool := false

namespace Ledger

/-- A table that stands has a family, and there is the default one. -/
def hasFamily (l : Ledger) (name : Bytes) : Bool := name = defaultFamily ∨ (l.live name).isSome

/-- The partition and the term of a record of a file, where its key is under a partition. -/
def termOf (carried : Store.Carried) : Option (Partition × ℤ) :=
  if h : Store.partitionHeld carried.1 < partitionCount then
    some (⟨Store.partitionHeld carried.1, h⟩, (Record.versionOf carried.2).term)
  else none

def step (l : Ledger) : HistoryEvent → Ledger
  | .write name record =>
    if l.hasFamily name then
      { l with records := (partitionOf record.key, record.stamp.term) :: l.records }
    else l
  | .imported name file =>
    if l.hasFamily name then { l with records := file.filterMap termOf ++ l.records } else l
  | .create table stamp =>
    match l.live table.name with
    | none =>
      { l with
        tableOps := stamp.term :: l.tableOps
        live := Function.update l.live table.name (some (table, stamp.term)) }
    | some (held, _) =>
      if held = table then { l with tableOps := stamp.term :: l.tableOps } else l
  | .delete name stamp =>
    if name = defaultFamily then l
    else { l with
      tableOps := stamp.term :: l.tableOps
      live := Function.update l.live name none
      garbled := l.garbled || !Utf8.valid name }

/-- Every operation that was carried out: its partition, the tables' being their own, and its
term. -/
def operations (l : Ledger) : List (Partition × ℤ) :=
  l.records ++ l.tableOps.map fun term => (tablePartition, term)

/-- The term of every operation on a table is remembered by something that outlives it: no term at
all, a record of the tables' partition, or a table that stands in a schema of nothing but text. -/
def Remembered (l : Ledger) : Prop :=
  ∀ term ∈ l.tableOps, term ≤ 0 ∨ (∃ record ∈ l.records, record.1 = tablePartition ∧
    term ≤ record.2) ∨ (l.garbled = false ∧ ∃ name table created,
      l.live name = some (table, created) ∧ term ≤ created)

end Ledger

/-! ### Terms of stores and of files -/

/-- One record of a file raises no term but its own partition's, and that to no more than its own
term. -/
theorem Store.le_carryTerm_iff {terms : PartitionTerms} {carried : Store.Carried}
    {partition : Partition} {term : ℤ} :
    term ≤ Store.carryTerm terms carried partition ↔ term ≤ terms partition ∨
      ∃ record, Ledger.termOf carried = some record ∧ record.1 = partition ∧ term ≤ record.2 := by
  unfold Store.carryTerm Ledger.termOf
  by_cases hheld : Store.partitionHeld carried.1 < partitionCount
  · simp only [dif_pos hheld, Option.some.injEq, exists_eq_left']
    by_cases heq : (⟨Store.partitionHeld carried.1, hheld⟩ : Partition) = partition
    · subst heq
      simp only [true_and]
      split_ifs with hlt
      · rw [Function.update_self]
        exact ⟨Or.inr, fun h => h.elim (fun h => h.trans hlt.le) id⟩
      · exact ⟨Or.inl, fun h => h.elim id fun h => h.trans (not_lt.mp hlt)⟩
    · simp only [heq, false_and, or_false]
      split_ifs
      · rw [Function.update_of_ne (Ne.symm heq)]
      · rfl
  · -- a key that names no partition carries no term
    simp [dif_neg hheld]

/-- A term is no newer than what a file carries in a partition exactly if it is no term at all or no
newer than that of a record of the partition. -/
theorem Store.le_carriedTerms_iff {file : List Store.Carried} {partition : Partition} {term : ℤ} :
    term ≤ Store.carriedTerms file partition ↔
      term ≤ 0 ∨ ∃ record ∈ file.filterMap Ledger.termOf, record.1 =
        partition ∧ term ≤ record.2 := by
  have hrun : ∀ (l : List Store.Carried) (terms : PartitionTerms),
      term ≤ l.foldl Store.carryTerm terms partition ↔ term ≤ terms partition ∨
        ∃ record ∈ l.filterMap Ledger.termOf, record.1 = partition ∧ term ≤ record.2 := by
    intro l
    induction l with
    | nil => simp
    | cons carried l ih =>
      intro terms
      rw [List.foldl_cons, ih, Store.le_carryTerm_iff]
      cases hterm : Ledger.termOf carried with
      | none => simp [hterm]
      | some record => simp [hterm, or_assoc]
  exact hrun file fun _ => 0

/-- A record of a file is of no newer term than the file carries in its partition. -/
theorem Store.term_le_carriedTerms {file : List Store.Carried} {carried : Store.Carried}
    (hmem : carried ∈ file) {partition : Partition}
    (hheld : Store.partitionHeld carried.1 = partition) :
    (Record.versionOf carried.2).term ≤ Store.carriedTerms file partition := by
  refine Store.le_carriedTerms_iff.mpr (Or.inr ?_)
  refine ⟨(partition, _), List.mem_filterMap.mpr ⟨carried, hmem, ?_⟩, rfl, le_rfl⟩
  rw [Ledger.termOf, dif_pos (hheld ▸ partition.isLt)]
  simp only [hheld]

/-! ### A store and its ledger -/

/-- The terms of the store are those of the records the ledger has, in memory and on disk, and no
record the store holds is newer. -/
structure TracksTerms (s : Store) (l : Ledger) : Prop where
  newest : ∀ partition term, term ≤ s.terms partition ↔
    term ≤ 0 ∨ ∃ record ∈ l.records, record.1 = partition ∧ term ≤ record.2
  onDisk : ∀ partition, (s.disk.terms partition).getD 0 = s.terms partition
  stored : ∀ {name key value : Bytes} {family : Family}, s.disk.families[name]? = some family →
    family[key]? = some value → ∀ {partition : Partition}, Store.partitionHeld key = partition →
    0 ≤ (Record.versionOf value).term ∧ (Record.versionOf value).term ≤ s.terms partition

/-- The schema of the store has the tables the ledger says stand, each with its family, and its
record holds it where it is all text. -/
structure TracksTables (s : Store) (l : Ledger) : Prop where
  live : ∀ name : Bytes, (s.tables.entries[name]?.bind fun entry =>
    entry.declared.map (·, entry.stamp.term)) = l.live name
  families : ∀ name : Bytes, name ∈ s.disk.families ↔ l.hasFamily name = true
  utf8 : s.tables.utf8 = !l.garbled
  declared : ∀ {name : Bytes} {entry : Entry} {table : Table},
    s.tables.entries[name]? = some entry → entry.declared = some table → table.utf8 = true
  stamped : s.tables.Stamped
  record : Store.readSchemaRecord J s.disk = if l.garbled then ∅ else s.tables

variable {J}

theorem TracksTerms.nonneg {s : Store} {l : Ledger} (h : TracksTerms s l) (partition : Partition) :
    0 ≤ s.terms partition :=
  (h.newest partition 0).mpr (Or.inl le_rfl)

theorem TracksTerms.termsKept {s : Store} {l : Ledger} (h : TracksTerms s l) : s.TermsKept where
  nonneg := h.nonneg
  onDisk := h.onDisk

/-- What leaves the terms alone and adds no record keeps them tracked. -/
theorem TracksTerms.of_families {s t : Store} {l l' : Ledger} (h : TracksTerms s l)
    (hterms : t.terms = s.terms) (hdisk : t.disk.terms = s.disk.terms)
    (hfamilies : ∀ {name : Bytes} {family : Family}, t.disk.families[name]? = some family →
      s.disk.families[name]? = some family ∨ family = ∅) (hrecords : l'.records = l.records) :
    TracksTerms t l' where
  newest partition term := by rw [hterms, hrecords, h.newest]
  onDisk partition := by rw [hterms, hdisk, h.onDisk]
  stored hfamily hvalue := by
    rw [hterms]
    rcases hfamilies hfamily with hsame | hempty
    · exact h.stored hsame hvalue
    · rw [hempty] at hvalue
      simp at hvalue

/-- What leaves the tables alone, and gives no family up and makes none, keeps them tracked. -/
theorem TracksTables.of_tables {s t : Store} {l l' : Ledger} (h : TracksTables J s l)
    (htables : t.tables = s.tables) (hschema : t.disk.schema = s.disk.schema)
    (hfamilies : ∀ name : Bytes, name ∈ t.disk.families ↔ name ∈ s.disk.families)
    (hlive : l'.live = l.live) (hgarbled : l'.garbled = l.garbled) : TracksTables J t l' where
  live name := by rw [htables, hlive, h.live]
  families name := by
    rw [hfamilies, h.families, Ledger.hasFamily, Ledger.hasFamily, hlive]
  utf8 := by rw [htables, hgarbled, h.utf8]
  declared := by rw [htables]; exact h.declared
  stamped := by rw [htables]; exact h.stamped
  record := by
    rw [htables, hgarbled, ← h.record, Store.readSchemaRecord, Store.readSchemaRecord, hschema]

theorem TracksTables.live_iff {s : Store} {l : Ledger} (h : TracksTables J s l) (name : Bytes) :
    s.tables.has name = (l.live name).isSome := by
  rw [← h.live, Schema.has, Schema.declared?, Schema.readEntry]
  cases s.tables.entries[name]? with
  | none => rfl
  | some entry => cases hdeclared : entry.declared <;> simp [hdeclared]

/-! ### Writing records -/

/-- Records that were added, where each term the store now stands at is an old one or one of
theirs. -/
theorem TracksTerms.newest_append {s : Store} {l : Ledger} (h : TracksTerms s l)
    {terms : PartitionTerms} (added : List (Partition × ℤ))
    (hterms : ∀ partition term, term ≤ terms partition ↔ term ≤ s.terms partition ∨
      ∃ record ∈ added, record.1 = partition ∧ term ≤ record.2) (partition : Partition) (term : ℤ) :
    term ≤ terms partition ↔
      term ≤ 0 ∨ ∃ record ∈ added ++ l.records, record.1 = partition ∧ term ≤ record.2 := by
  rw [hterms, h.newest]
  simp only [List.mem_append, or_and_right, exists_or]
  rw [or_assoc]
  exact or_congr_right or_comm

/-- A write leaves the terms tracked: its own is now one of them, whichever of the two versions
stands. -/
theorem TracksTerms.writeRecord {s : Store} {l : Ledger} (h : TracksTerms s l) {name : Bytes}
    {family : Family} (hfamily : s.disk.families[name]? = some family) {record : Record}
    (hfits : record.stamp.Fits) (hterm : 0 ≤ record.stamp.term) :
    TracksTerms (after (Store.writeRecord {} name record s))
      { l with records := (partitionOf record.key, record.stamp.term) :: l.records } := by
  have hversion := Record.versionOf_composeValue hfits record.value
  have hlength := Record.length_composeValue record.stamp record.value
  rw [Store.writeRecord_eq hfamily, after_ok]
  by_cases hnewer : family[Store.storeKey record.key]?.any
      (Record.isNewer · (Record.composeValue record.stamp record.value)) = true
  · -- what is held is newer, and so is the term its partition stands at
    rw [if_pos hnewer]
    obtain ⟨held, hheld, hisNewer⟩ := (Option.any_eq_true _ _).mp hnewer
    have hstored := h.stored hfamily hheld (Store.partitionHeld_storeKey record.key)
    have hlong : Record.versionSize ≤ held.length := by
      by_contra hshort
      rw [Record.isNewer, if_pos (by omega)] at hisNewer
      cases hisNewer
    have hle : record.stamp.term ≤ s.terms (partitionOf record.key) := by
      rw [Record.isNewer_eq hlong (by omega) hstored.1 (by rwa [hversion]), hversion,
        Version.isNewer_iff] at hisNewer
      omega
    refine ⟨h.newest_append [_] fun partition term => ?_, h.onDisk, h.stored⟩
    simp only [List.mem_singleton, exists_eq_left]
    refine ⟨Or.inl, Or.rec id ?_⟩
    rintro ⟨rfl, hadded⟩
    exact hadded.trans hle
  · rw [if_neg hnewer]
    have hnewest : ∀ partition, (s.written name family record).terms partition =
        if partition = partitionOf record.key then
          max (s.terms partition) record.stamp.term
        else s.terms partition := by
      intro partition
      unfold Store.written
      split_ifs with hle heq heq
      · rw [heq, max_eq_left hle]
        rfl
      · rfl
      · rw [heq, max_eq_right (not_le.mp hle).le]
        exact Function.update_self ..
      · exact Function.update_of_ne heq ..
    have hgrows :
      ∀ partition, s.terms partition ≤ (s.written name family record).terms partition := by
      intro partition
      rw [hnewest]
      split_ifs
      · exact le_max_left _ _
      · exact le_refl _
    refine ⟨h.newest_append [_] fun partition term => ?_, fun partition => ?_, ?_⟩
    · simp only [List.mem_singleton, exists_eq_left]
      rw [hnewest]
      split_ifs with heq
      · simp [heq]
      · simp [Ne.symm heq]
    · unfold Store.written
      split_ifs
      · exact h.onDisk partition
      · by_cases heq : partition = partitionOf record.key
        · subst heq
          simp [Store.raiseTerm]
        · simp [Store.raiseTerm, heq, Store.setFamily, h.onDisk]
    · intro other key value family' hother hvalue partition hheld
      rw [Store.families_written, Std.ExtTreeMap.getElem?_insert] at hother
      split_ifs at hother with hname
      · obtain rfl := Option.some.inj hother
        rw [Std.ExtTreeMap.getElem?_insert] at hvalue
        split_ifs at hvalue with hkey
        · obtain rfl := Std.LawfulEqCmp.eq_of_compare hkey
          obtain rfl := Option.some.inj hvalue
          rw [Store.partitionHeld_storeKey] at hheld
          obtain rfl := Fin.val_injective hheld
          rw [hversion, hnewest, if_pos rfl]
          exact ⟨hterm, le_max_right _ _⟩
        · exact (h.stored hfamily hvalue hheld).imp_right fun hle => hle.trans (hgrows _)
      · exact (h.stored hother hvalue hheld).imp_right fun hle => hle.trans (hgrows _)

/-- An import leaves the terms tracked, those of the records it did not take with the others. -/
theorem TracksTerms.importRecords {s : Store} {l : Ledger} (h : TracksTerms s l) {name : Bytes}
    {family : Family} (hfamily : s.disk.families[name]? = some family) {file : List Store.Carried}
    (hterms : ∀ carried ∈ file, 0 ≤ (Record.versionOf carried.2).term) :
    TracksTerms (after (Store.importRecords {} name file s))
      { l with records := file.filterMap Ledger.termOf ++ l.records } := by
  by_cases hfile : file = []
  · subst hfile
    exact h
  obtain ⟨families, hrun, hfamilies⟩ := Store.importRecords_eq hfile hfamily
  rw [hrun, after_ok]
  have hraised := h.termsKept.terms_raisedTo (Store.carriedTerms file)
  have hstood : ∀ partition, s.terms partition ≤
      (s.raisedTo (Store.carriedTerms file)).terms partition := fun partition => by
    rw [hraised]
    exact le_max_left _ _
  refine ⟨h.newest_append _ fun partition term => ?_, fun partition => ?_, ?_⟩
  · change term ≤ (s.raisedTo (Store.carriedTerms file)).terms partition ↔ _
    rw [hraised, le_max_iff, Store.le_carriedTerms_iff, ← or_assoc]
    exact or_congr_left (or_iff_left_of_imp fun hle => hle.trans (h.nonneg partition))
  · exact (h.termsKept.raisedTo _).onDisk partition
  · intro other key value family' hother hvalue partition hheld
    change _ ∧ _ ≤ (s.raisedTo (Store.carriedTerms file)).terms partition
    change families[other]? = _ at hother
    rw [hfamilies] at hother
    split_ifs at hother with hname
    · obtain rfl := Option.some.inj hother
      rcases Store.mem_of_getElem?_ingest hvalue with hmem | hheldBefore
      · have hin := List.mem_of_mem_filter hmem
        refine ⟨hterms _ hin, ?_⟩
        rw [hraised]
        exact (Store.term_le_carriedTerms hin hheld).trans (le_max_right _ _)
      · exact (h.stored hfamily hheldBefore hheld).imp_right fun hle => hle.trans (hstood _)
    · exact (h.stored hother hvalue hheld).imp_right fun hle => hle.trans (hstood _)

/-! ### Creating and deleting tables -/

/-- What the record of the schema holds once it was written down. -/
theorem readSchemaRecord_writeDown_eq {s : Store} (hstamped : s.tables.Stamped) :
    Store.readSchemaRecord J (s.writeDown J).disk = if s.tables.utf8 then s.tables else ∅ := by
  have hwritten : s.tables.asWritten = s.tables :=
    (Schema.asWritten_eq_iff hstamped.fits).mpr hstamped
  rw [Store.readSchemaRecord, Store.schema_writeDown]
  dsimp only
  rw [Schema.toSchema_serialize J hstamped.fits, hwritten]

/-- A name put at an entry and written down leaves the tables tracked by a ledger that has done the
same. -/
theorem TracksTables.put {s t : Store} {l l' : Ledger} (h : TracksTables J s l) {name : Bytes}
    {entry : Entry} (hnamed : ∀ table, entry.declared = some table → table.name = name)
    (hstamp : entry.stamp.Documented)
    (htext : ∀ table, entry.declared = some table → table.utf8 = true)
    (htables : t.tables = s.tables.put name entry hnamed)
    (hfamilies : ∀ other : Bytes, other ∈ t.disk.families ↔ l'.hasFamily other = true)
    (hlive : l'.live = Function.update l.live name (entry.declared.map (·, entry.stamp.term)))
    (hgarbled : l'.garbled = (l.garbled || !Utf8.valid name)) :
    TracksTables J (t.writeDown J) l' := by
  have hutf8 : t.tables.utf8 = !l'.garbled := by
    rw [htables, Schema.utf8_put_eq (fun held table => h.declared) htext, h.utf8, hgarbled,
      Bool.not_or, Bool.not_not]
  have hstamped : t.tables.Stamped := by
    intro other held hheld
    rw [htables, Schema.getElem?_put] at hheld
    split_ifs at hheld with heq
    · obtain rfl := Option.some.inj hheld
      exact hstamp
    · exact h.stamped hheld
  refine ⟨fun other => ?_, hfamilies, hutf8, ?_, hstamped, ?_⟩
  · rw [Store.tables_writeDown, htables, Schema.getElem?_put, hlive]
    split_ifs with heq
    · subst heq
      rw [Function.update_self]
      rfl
    · rw [Function.update_of_ne (Ne.symm heq), h.live]
  · intro other held table hheld htable
    rw [Store.tables_writeDown, htables, Schema.getElem?_put] at hheld
    split_ifs at hheld with heq
    · obtain rfl := Option.some.inj hheld
      exact htext table htable
    · exact h.declared hheld htable
  · rw [readSchemaRecord_writeDown_eq hstamped, hutf8, Store.tables_writeDown]
    cases l'.garbled <;> rfl

/-- What a store does to its terms where only families are made and given up. -/
theorem TracksTerms.withFamily {s : Store} {l l' : Ledger} (h : TracksTerms s l) {name : Bytes}
    {tables : Schema} (hrecords : l'.records = l.records) :
    TracksTerms (((s.withFamily name).setTables tables).writeDown J) l' := by
  refine h.of_families ?_ ?_ (fun {other family} hfamily => ?_) hrecords
  · unfold Store.withFamily
    split_ifs <;> rfl
  · unfold Store.withFamily
    split_ifs <;> rfl
  · rw [Store.families_writeDown, Store.disk_setTables, Store.getElem?_withFamily] at hfamily
    split_ifs at hfamily with hother
    · subst hother
      cases hheld : s.disk.families[other]? with
      | none => exact Or.inr (by simpa [hheld] using hfamily.symm)
      | some held => exact Or.inl (by simpa [hheld] using hfamily)
    · exact Or.inl hfamily

theorem TracksTerms.withoutFamily {s : Store} {l l' : Ledger} (h : TracksTerms s l) {name : Bytes}
    {tables : Schema} (hrecords : l'.records = l.records) :
    TracksTerms (((s.withoutFamily name).setTables tables).writeDown J) l' := by
  refine h.of_families ?_ ?_ (fun {other family} hfamily => ?_) hrecords
  · unfold Store.withoutFamily
    split_ifs <;> rfl
  · unfold Store.withoutFamily
    split_ifs <;> rfl
  · rw [Store.families_writeDown, Store.disk_setTables, Store.getElem?_withoutFamily] at hfamily
    split_ifs at hfamily with hother
    exact Or.inl hfamily

/-- The store and the ledger say the same of the terms and of the tables. -/
structure Tracks (J : JsonCodec) (s : Store) (l : Ledger) : Prop where
  terms : TracksTerms s l
  tables : TracksTables J s l

theorem Tracks.carryCreate {s : Store} {l : Ledger} (h : Tracks J s l) {table : Table}
    {stamp : Version} (htext : table.utf8 = true) (hstamp : stamp.Documented) :
    Tracks J (s.carryCreate J table stamp) (l.step (.create table stamp)) := by
  have hhas := h.tables.live_iff table.name
  unfold Store.carryCreate
  rw [Ledger.step]
  cases hlive : l.live table.name with
  | some held =>
    rw [hlive, Option.isSome_some] at hhas
    rw [if_pos hhas]
    dsimp only
    split_ifs
    · exact ⟨h.terms.of_families rfl rfl Or.inl rfl,
        h.tables.of_tables rfl rfl (fun _ => Iff.rfl) rfl rfl⟩
    · exact h
  | none =>
    rw [hlive] at hhas
    rw [if_neg (by simp [hhas])]
    rcases Store.createTable_cases J {} table stamp s with ⟨-, -, hrun⟩ | ⟨hno, -⟩ | ⟨-, hno, -⟩
    · rw [hrun, after_ok]
      have hdeclared : ∀ other, some table = some other → other = table := fun _ hother =>
        (Option.some.inj hother).symm
      refine ⟨h.terms.withFamily rfl, h.tables.put (fun other hother => ?_) hstamp
        (fun other hother => ?_) rfl (fun other => ?_) rfl ?_⟩
      · rw [hdeclared other hother]
      · rw [hdeclared other hother]
        exact htext
      · rw [Store.disk_setTables, Store.mem_withFamily, h.tables.families]
        by_cases heq : other = table.name
        · simp [Ledger.hasFamily, heq]
        · simp [Ledger.hasFamily, heq]
      · rw [(Bool.and_eq_true_iff.mp htext).1, Bool.not_true, Bool.or_false]
    · exact absurd (Or.inr rfl) hno
    · exact absurd rfl hno

theorem Tracks.deleteTable {s : Store} {l : Ledger} (h : Tracks J s l) {name : Bytes}
    {stamp : Version} (hstamp : stamp.Documented) :
    Tracks J (after (Store.deleteTable J {} name stamp s)) (l.step (.delete name stamp)) := by
  have hdefault : defaultFamily ∈ s.disk.families := by
    rw [h.tables.families]
    simp [Ledger.hasFamily]
  have hfails := Store.altersFamily_sound_iff hdefault ⟨name, false⟩
  rw [Ledger.step]
  rcases Store.deleteTable_cases J {} name stamp s with ⟨halters, -, hrun⟩ | ⟨hno, e, hrun⟩ |
    ⟨-, hno, -⟩
  · have hname : name ≠ defaultFamily := fun heq => hfails.mpr (by rw [heq]) halters
    rw [hrun, after_ok, if_neg hname]
    refine ⟨h.terms.withoutFamily rfl, h.tables.put (fun _ hother => by cases hother) hstamp
      (fun _ hother => by cases hother) rfl (fun other => ?_) rfl rfl⟩
    rw [Store.disk_setTables, Store.mem_withoutFamily, h.tables.families]
    by_cases heq : other = name
    · simp [Ledger.hasFamily, heq, hname]
    · simp [Ledger.hasFamily, heq]
  · obtain rfl : name = defaultFamily := congrArg Schema.Change.name (hfails.mp hno)
    rw [hrun, after_error, if_pos rfl]
    exact h
  · exact absurd rfl hno

/-- **A step of a history and of its ledger keep the two together.** -/
theorem Tracks.step {s : Store} {l : Ledger} (h : Tracks J s l) {e : HistoryEvent} (he : e.Valid) :
    Tracks J (s.historyStep J e) (l.step e) := by
  have hfamily : ∀ name, l.hasFamily name = true ↔ ∃ family, s.disk.families[name]? = some family :=
    fun name => by
      rw [← h.tables.families, ← Std.ExtTreeMap.isSome_getElem?_iff_mem, Option.isSome_iff_exists]
  have hnone : ∀ name, ¬l.hasFamily name = true → s.disk.families[name]? = none := fun name hno =>
    Option.eq_none_iff_forall_not_mem.mpr fun family hheld =>
      hno ((hfamily name).mpr ⟨family, hheld⟩)
  cases e with
  | write name record =>
    rw [Store.historyStep, Ledger.step]
    split_ifs with hhas
    · obtain ⟨family, hheld⟩ := (hfamily name).mp hhas
      refine ⟨h.terms.writeRecord hheld he.1 he.2, ?_⟩
      rw [Store.writeRecord_eq hheld, after_ok]
      split_ifs
      · exact h.tables.of_tables rfl rfl (fun _ => Iff.rfl) rfl rfl
      · refine h.tables.of_tables (Store.tables_written ..) (Store.schema_written ..)
          (fun other => ?_) rfl rfl
        rw [Store.families_written, Std.ExtTreeMap.mem_insert]
        refine or_iff_right_of_imp fun heq => ?_
        rw [← Std.LawfulEqCmp.eq_of_compare heq, h.tables.families]
        exact hhas
    · rw [Store.after_writeRecord_of_none (hnone name hhas)]
      exact h
  | imported name file =>
    rw [Store.historyStep, Ledger.step]
    split_ifs with hhas
    · obtain ⟨family, hheld⟩ := (hfamily name).mp hhas
      refine ⟨h.terms.importRecords hheld he, ?_⟩
      by_cases hfile : file = []
      · subst hfile
        exact h.tables
      obtain ⟨families, hrun, hfamilies⟩ := Store.importRecords_eq hfile hheld
      rw [hrun, after_ok]
      refine h.tables.of_tables rfl rfl (fun other => ?_) rfl rfl
      change other ∈ families ↔ _
      rw [← Std.ExtTreeMap.isSome_getElem?_iff_mem, hfamilies,
        ← Std.ExtTreeMap.isSome_getElem?_iff_mem]
      split_ifs with heq
      · rw [heq, hheld]
        rfl
      · rfl
    · rw [Store.after_importRecords_of_none (hnone name hhas)]
      exact h
  | create table stamp => exact h.carryCreate he.2.1 he.2.2
  | delete name stamp => exact h.deleteTable he

/-! ### Histories -/

/-- A store over a directory nothing has been written into. -/
def Store.opened (J : JsonCodec) : Store := after (Store.openStore J {} Disk.fresh)

theorem tracks_opened : Tracks J (Store.opened J) {} := by
  obtain ⟨families, hrun, hfamilies⟩ := Store.openStore_eq J Disk.fresh
  have hrecord : Store.readSchemaRecord J Disk.fresh = ∅ := rfl
  rw [Store.opened, hrun, after_ok]
  rw [hrecord] at hfamilies ⊢
  have hempty : ∀ name : Bytes, (∅ : Schema).has name = false := fun name => by
    rw [Schema.has, Schema.declared?, Schema.readEntry]
    exact congrArg Option.isSome (congrArg (Option.bind · _) Std.ExtTreeMap.getElem?_empty)
  simp only [hempty, Bool.false_eq_true, if_false] at hfamilies
  constructor
  · refine ⟨fun partition term => ?_, fun _ =>
      rfl, fun {name key value family} hfamily hvalue => ?_⟩
    · simp [Disk.fresh]
    · dsimp only at hfamily
      rw [hfamilies] at hfamily
      split_ifs at hfamily with hname
      rw [hname, Disk.fresh, Std.ExtTreeMap.getElem?_insert_self] at hfamily
      obtain rfl := Option.some.inj hfamily
      simp at hvalue
  · refine ⟨fun name => rfl, fun name => ?_, rfl, ?_, ?_, rfl⟩
    · dsimp only
      rw [← Std.ExtTreeMap.isSome_getElem?_iff_mem, hfamilies]
      split_ifs with hname
      · simp [hname, Disk.fresh, Ledger.hasFamily]
      · simp [Ledger.hasFamily, hname]
    · intro name entry table hentry
      cases hentry
    · intro name entry hentry
      cases hentry

theorem tracks_run {s : Store} {l : Ledger} (h : Tracks J s l) {es : List HistoryEvent}
    (hes : ∀ e ∈ es, e.Valid) :
    Tracks J (run (Store.historyStep J) s es) (run Ledger.step l es) := by
  induction es generalizing s l with
  | nil => exact h
  | cons e es ih =>
    exact ih (h.step (hes e List.mem_cons_self)) fun e' he' => hes e' (List.mem_cons_of_mem _ he')

/-! ### What is restored -/

/-- The newest term of the names a schema has, no older than the one it starts out from. -/
theorem le_restoredTerms_iff {s : Store} {term : ℤ} :
    term ≤ Node.restoredTerms s tablePartition ↔ term ≤ s.terms tablePartition ∨
      ∃ (name : Bytes) (entry : Entry) (table : Table), s.tables.entries[name]? = some entry ∧
        entry.declared = some table ∧ term ≤ entry.stamp.term := by
  have hrun : ∀ newer : ℤ → Bytes → ℤ, (∀ newest name, newer newest name =
        (s.tables.readEntry name).elim newest fun entry =>
          if newest < entry.stamp.term then entry.stamp.term else newest) →
      ∀ (names : List Bytes) (newest : ℤ), term ≤ names.foldl newer newest ↔ term ≤ newest ∨
        ∃ name ∈ names, ∃ entry, s.tables.readEntry name = some entry ∧
          term ≤ entry.stamp.term := by
    intro newer hnewer names
    induction names with
    | nil => simp
    | cons name names ih =>
      intro newest
      rw [List.foldl_cons, ih, hnewer]
      cases hentry : s.tables.readEntry name with
      | none => simp [hentry]
      | some entry =>
        rw [Option.elim_some]
        simp only [List.mem_cons, exists_eq_or_imp, hentry, Option.some.injEq, exists_eq_left']
        rw [← or_assoc]
        refine or_congr_left ?_
        split_ifs with hlt
        · exact ⟨Or.inr, fun h => h.elim (fun h => h.trans hlt.le) id⟩
        · exact ⟨Or.inl, fun h => h.elim id fun h => h.trans (not_lt.mp hlt)⟩
  rw [Node.restoredTerms, Function.update_self]
  refine (hrun _ (fun newest name => ?_) s.tables.names (s.terms tablePartition)).trans
    (or_congr_right ⟨?_, ?_⟩)
  · cases s.tables.readEntry name with
    | none => rfl
    | some entry => rfl
  · rintro ⟨name, hname, entry, hentry, hle⟩
    obtain ⟨entry', table, hentry', htable⟩ := Schema.has_iff.mp (Schema.mem_names_iff.mp hname)
    obtain rfl : entry' = entry := Option.some.inj (hentry'.symm.trans hentry)
    exact ⟨name, entry', table, hentry', htable, hle⟩
  · rintro ⟨name, entry, table, hentry, htable, hle⟩
    exact ⟨name, Schema.mem_names_iff.mpr
      (Schema.has_iff.mpr ⟨entry, table, hentry, htable⟩), entry, hentry, hle⟩

/-- A term is no newer than what a node accepts after a restart exactly if something that outlives
it remembers it. -/
theorem Tracks.le_accepted_iff {n : Node} {l : Ledger} (h : Tracks J n.store l)
    {partition : Partition} {term : ℤ} :
    term ≤ (n.restarted J).accepted partition ↔
      term ≤ 0 ∨ (∃ record ∈ l.records, record.1 = partition ∧ term ≤ record.2) ∨
        (partition = tablePartition ∧ l.garbled = false ∧ ∃ name table created,
          l.live name = some (table, created) ∧ term ≤ created) := by
  obtain ⟨families, hrun, -⟩ := Store.openStore_eq J n.store.disk
  -- the store as it was opened again
  let s : Store :=
    { disk := { n.store.disk with families }
      tables := Store.readSchemaRecord J n.store.disk
      terms := fun partition => (n.store.disk.terms partition).getD 0 }
  have hs : after (Store.openStore J {} n.store.disk) = s := by rw [hrun, after_ok]
  have hnewest : ∀ partition, term ≤ s.terms partition ↔
      term ≤ 0 ∨ ∃ record ∈ l.records, record.1 = partition ∧ term ≤ record.2 := fun partition => by
    rw [← h.terms.newest, ← h.terms.onDisk]
  have hlive : (∃ (name : Bytes) (entry : Entry) (table : Table),
    s.tables.entries[name]? = some entry ∧
      entry.declared = some table ∧ term ≤ entry.stamp.term) ↔
      l.garbled = false ∧ ∃ name table created, l.live name = some (table, created) ∧
        term ≤ created := by
    change (∃ (name : Bytes) (entry : Entry) (table : Table),
      (Store.readSchemaRecord J n.store.disk).entries[name]? = some entry ∧ _) ↔ _
    rw [h.tables.record]
    cases l.garbled with
    | true =>
      simp only [if_true, Bool.true_eq_false, false_and, iff_false, not_exists]
      rintro name entry table ⟨hentry, -⟩
      cases hentry
    | false =>
      simp only [Bool.false_eq_true, if_false, true_and, ← h.tables.live, Option.bind_eq_some_iff,
        Option.map_eq_some_iff, Prod.mk.injEq]
      constructor
      · rintro ⟨name, entry, table, hentry, htable, hle⟩
        exact ⟨name, table, _, ⟨entry, hentry, table, htable, rfl, rfl⟩, hle⟩
      · rintro ⟨name, table, created, ⟨entry, hentry, table', htable, rfl, rfl⟩, hle⟩
        exact ⟨name, entry, table', hentry, htable, hle⟩
  have haccepted : (n.restarted J).accepted partition = max 0 (Node.restoredTerms s partition) := by
    rw [Node.restarted, hs]
    rfl
  rw [haccepted, le_max_iff]
  by_cases hpartition : partition = tablePartition
  · rw [hpartition, le_restoredTerms_iff, hnewest, hlive]
    simp only [true_and]
    rw [or_assoc, ← or_assoc, or_self]
  · have hrestored : Node.restoredTerms s partition = s.terms partition := by
      rw [Node.restoredTerms, Function.update_of_ne hpartition]
    rw [hrestored, hnewest, ← or_assoc, or_self]
    simp only [hpartition, false_and, or_false]

/-- An operation that was carried out is still fenced: its term is accepted, and a write or an
operation on a table that is ordered in an older one is refused. -/
structure StillFenced (n : Node) (operation : Partition × ℤ) : Prop where
  accepted : operation.2 ≤ n.accepted operation.1
  writes : ∀ (w : Seams) (request : Request) (name : Bytes) (record : Record),
    partitionOf record.key = operation.1 → request.term ≠ 0 → request.term < operation.2 →
    ∃ message n', Node.applyWrite w request name record n =
      .ok (errorResponse .staleLeader message) n'
  tables : operation.1 = tablePartition → ∀ (w : Seams) (request : Request), request.term ≠ 0 →
    request.term < operation.2 → ∃ message n', Node.orderSchema w request n =
      .ok (.error (errorResponse .staleLeader message)) n'

theorem stillFenced_iff {n : Node} {operation : Partition × ℤ} :
    StillFenced n operation ↔ operation.2 ≤ n.accepted operation.1 := by
  refine ⟨StillFenced.accepted, fun h => ⟨h, ?_, ?_⟩⟩
  · intro w request name record hpartition hterm hlt
    have hstale : ¬n.accepted (partitionOf record.key) ≤ request.term := by
      rw [hpartition]
      exact not_le.mpr (hlt.trans_le h)
    rw [Node.applyWrite, if_neg hterm, run_bind, Node.accept_eq hterm, decide_eq_false hstale]
    exact ⟨_, _, rfl⟩
  · intro hpartition w request hterm hlt
    have hstale : ¬n.accepted (partitionOf tableKey) ≤ request.term := by
      rw [← tablePartition, ← hpartition]
      exact not_le.mpr (hlt.trans_le h)
    rw [Node.orderSchema, if_pos hterm, run_bind, Node.accept_eq hterm, decide_eq_false hstale]
    exact ⟨_, _, rfl⟩

/-- The node a process is over a store that a history left behind, once that store was closed and
opened again. -/
def Node.afterHistory (J : JsonCodec) (es : List HistoryEvent) : Node :=
  Node.restarted J { store := run (Store.historyStep J) (Store.opened J) es }

/-- **Which histories a restart forgets nothing of**: those in which the term of every operation on
a table is remembered by something that outlives it. The terms of records always are. -/
theorem restores_iff (es : List HistoryEvent) (hes : ∀ e ∈ es, e.Valid) :
    (∀ operation ∈ (run Ledger.step {} es).operations,
        StillFenced (Node.afterHistory J es) operation) ↔ (run Ledger.step {} es).Remembered := by
  have htracks : Tracks J
      ({ store := run (Store.historyStep J) (Store.opened J) es } : Node).store
      (run Ledger.step {} es) := tracks_run tracks_opened hes
  simp only [stillFenced_iff, Node.afterHistory, htracks.le_accepted_iff, Ledger.operations,
    List.mem_append, List.mem_map, Ledger.Remembered]
  constructor
  · intro h term hterm
    simpa only [true_and] using h (tablePartition, term) (Or.inr ⟨term, hterm, rfl⟩)
  · rintro h operation (hrecord | ⟨term, hterm, rfl⟩)
    · exact Or.inr (Or.inl ⟨operation, hrecord, rfl, le_rfl⟩)
    · simpa only [true_and] using h term hterm

/-! ### A history that is forgotten -/

theorem restores_iff_create :
    (run Ledger.step {} [.create ⟨ascii "t", []⟩ ⟨9, 1⟩]).operations.length = 1 ∧
      ∀ operation ∈ (run Ledger.step {} [.create ⟨ascii "t", []⟩ ⟨9, 1⟩]).operations,
        StillFenced
          (Node.afterHistory JsonText.codec [.create ⟨ascii "t", []⟩ ⟨9, 1⟩]) operation := by
  refine ⟨rfl, (restores_iff [.create ⟨ascii "t", []⟩ ⟨9, 1⟩] ?_).mpr ?_⟩
  · intro e he
    obtain rfl := List.mem_singleton.mp he
    exact ⟨by decide +kernel, by decide +kernel, by decide⟩
  · intro term hterm
    exact Or.inr (Or.inr ⟨rfl, ascii "t", ⟨ascii "t", []⟩, 9, rfl,
      (List.mem_singleton.mp hterm).le⟩)

/-- A table created and deleted in term 9 leaves nothing to restore: the node accepts the tables'
operations of every term again, and a create that was ordered in term 5 is carried out over the
delete of term 9. -/
theorem forgets_delete :
    let es := [HistoryEvent.create ⟨ascii "t", []⟩ ⟨9, 1⟩, .delete (ascii "t") ⟨9, 2⟩]
    let n := Node.afterHistory JsonText.codec es
    (tablePartition, (9 : ℤ)) ∈ (run Ledger.step {} es).operations ∧
      n.accepted tablePartition = 0 ∧
      ¬StillFenced n (tablePartition, 9) ∧
      (n.requestStep JsonText.codec (carriedCreate 5 (ascii "t"))).store.tables.has (ascii "t") =
        true := by
  have haccepted : (Node.afterHistory JsonText.codec
      [HistoryEvent.create ⟨ascii "t", []⟩ ⟨9, 1⟩, .delete (ascii "t") ⟨9, 2⟩]).accepted
        tablePartition = 0 := by decide +kernel
  refine ⟨by decide +kernel, haccepted, fun h => ?_, by decide +kernel⟩
  have hle := h.accepted
  rw [haccepted] at hle
  exact absurd hle (by decide)

end AsyncDatabase
