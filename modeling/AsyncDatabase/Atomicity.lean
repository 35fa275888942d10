import AsyncDatabase.Reopening

/-!
# Schema operations that fail

A schema operation changes three things in turn: the column families, the schema in memory and the
record `SCHEMA`. Here any call of the database may fail, and the operation throws with what came
before the failure done. `Agrees` says that the three agree, `Atomic` is the condition under which a
step leaves them so, and `agrees_of_atomic` is the rule for runs.
-/

namespace AsyncDatabase

open Bytes (ascii)
open Machine Throwing

variable (J : JsonCodec)

/-- What can happen to a store whose database may fail: the calls of the repository, the same
operations asked for through the router, records written and restarts. -/
inductive StoreEvent where
  | create (db : Database) (table : Table) (stamp : Version)
  | delete (db : Database) (name : Bytes) (stamp : Version)
  | merge (db : Database) (named : Schema)
  | putRoute (w : Seams) (request : Request) (name : Bytes)
  | deleteRoute (w : Seams) (request : Request) (name : Bytes)
  | write (db : Database) (name : Bytes) (record : Record)
  | restart

namespace Node

def storeStep (n : Node) : StoreEvent → Node
  | .create db table stamp => after (onStore (Store.createTable J db table stamp) n)
  | .delete db name stamp => after (onStore (Store.deleteTable J db name stamp) n)
  | .merge db named => after (onStore (Store.mergeSchema J db named) n)
  | .putRoute w request name => after (createTable J w request name n)
  | .deleteRoute w request name => after (deleteTable J w request name n)
  | .write db name record => after (onStore (Store.writeRecord db name record) n)
  | .restart => n.restarted J

end Node

/-- The schema in memory, the families and the record agree: the record parses back to the schema,
every table has a family and every family but the default one has its table, and a store opened
again has each table with every record of it. -/
structure Agrees (s : Store) : Prop where
  record : Store.readSchemaRecord J s.disk = s.tables
  hasFamily : ∀ {name : Bytes}, s.tables.has name = true → name ∈ s.disk.families
  hasTable : ∀ {name : Bytes}, name ∈ s.disk.families → name = defaultFamily ∨ s.tables.has name
  reopens : ∀ {name : Bytes} {family : Family}, s.tables.has name = true →
    s.disk.families[name]? = some family →
    (after (Store.openStore J {} s.disk)).tables.has name = true ∧
      (after (Store.openStore J {} s.disk)).disk.families[name]? = some family

namespace Store

/-- Creating a table stops before it does anything, or its record is written and is text, or there
is nothing to write. -/
def CreateAtomic (db : Database) (s : Store) (table : Table) (stamp : Version) : Prop :=
  AltersFamily db s ⟨table.name, true⟩ →
    if db.putSchema = .ok then table.utf8 = true else s.tables.create table stamp = s.tables

/-- Deleting a table stops before it does anything, or its record is written and is text, or there
is nothing to write. -/
def DeleteAtomic (db : Database) (s : Store) (name : Bytes) (stamp : Version) : Prop :=
  AltersFamily db s ⟨name, false⟩ →
    if db.putSchema = .ok then Utf8.valid name = true else s.tables.remove name stamp = s.tables

/-- Every family a merge alters is altered, and its record is written and is text, or there is
nothing to write. -/
def MergeAtomic (db : Database) (s : Store) (named : Schema) : Prop :=
  (∀ change ∈ (s.tables.merge named).2, AltersFamily db s change) ∧
    if db.putSchema = .ok then (s.tables.merge named).1.utf8 = true
    else (s.tables.merge named).1 = s.tables

end Store

/-- The step leaves the schema, the families and the record in agreement. A create that a client
asks for is of a table there is not, so its record is one to write; a delete carried to the node may
find its own tombstone there. -/
def Atomic (n : Node) : StoreEvent → Prop
  | .create db table stamp => n.store.CreateAtomic db table stamp
  | .delete db name stamp => n.store.DeleteAtomic db name stamp
  | .merge db named => n.store.MergeAtomic db named
  | .putRoute w _ name =>
    n.store.tables.has name = false → Store.AltersFamily w.db n.store ⟨name, true⟩ →
      w.db.putSchema = .ok
  | .deleteRoute w request name =>
    (request.term = 0 → n.store.tables.has name = true →
        Store.AltersFamily w.db n.store ⟨name, false⟩ → w.db.putSchema = .ok) ∧
      (request.term ≠ 0 → n.accepted tablePartition ≤ request.term →
        n.store.DeleteAtomic w.db name ⟨request.term, request.count⟩)
  | .write .. => True
  | .restart => True

section Decidable

variable (db : Database) (s : Store)

instance (table : Table) (stamp : Version) : Decidable (s.CreateAtomic db table stamp) :=
  inferInstanceAs (Decidable (Store.AltersFamily db s ⟨table.name, true⟩ →
    if db.putSchema = .ok then table.utf8 = true else s.tables.create table stamp = s.tables))

instance (name : Bytes) (stamp : Version) : Decidable (s.DeleteAtomic db name stamp) :=
  inferInstanceAs (Decidable (Store.AltersFamily db s ⟨name, false⟩ →
    if db.putSchema = .ok then Utf8.valid name = true else s.tables.remove name stamp = s.tables))

instance (named : Schema) : Decidable (s.MergeAtomic db named) :=
  inferInstanceAs (Decidable
    ((∀ change ∈ (s.tables.merge named).2, Store.AltersFamily db s change) ∧
      if db.putSchema = .ok then (s.tables.merge named).1.utf8 = true
      else (s.tables.merge named).1 = s.tables))

instance (n : Node) : DecidablePred (Atomic n)
  | .create db table stamp => inferInstanceAs (Decidable (n.store.CreateAtomic db table stamp))
  | .delete db name stamp => inferInstanceAs (Decidable (n.store.DeleteAtomic db name stamp))
  | .merge db named => inferInstanceAs (Decidable (n.store.MergeAtomic db named))
  | .putRoute w _ name =>
    inferInstanceAs (Decidable (n.store.tables.has name = false →
      Store.AltersFamily w.db n.store ⟨name, true⟩ → w.db.putSchema = .ok))
  | .deleteRoute w request name =>
    inferInstanceAs (Decidable ((request.term = 0 → n.store.tables.has name = true →
        Store.AltersFamily w.db n.store ⟨name, false⟩ → w.db.putSchema = .ok) ∧
      (request.term ≠ 0 → n.accepted tablePartition ≤ request.term →
        n.store.DeleteAtomic w.db name ⟨request.term, request.count⟩)))
  | .write .. => inferInstanceAs (Decidable True)
  | .restart => inferInstanceAs (Decidable True)

end Decidable

/-! ### What a step keeps -/

/-- A sound store whose families, the default one aside, are those of its tables. -/
structure Consistent (s : Store) : Prop extends Sound J s where
  families : ∀ {name : Bytes}, name ≠ defaultFamily →
    (name ∈ s.disk.families ↔ s.tables.has name = true)

variable {J}

theorem Consistent.agrees {s : Store} (h : Consistent J s) : Agrees J s where
  record := h.record
  hasFamily {name} hhas := by
    by_cases hname : name = defaultFamily
    · rw [hname]
      exact h.hasDefault
    · exact (h.families hname).mpr hhas
  hasTable {name} hmem := by
    by_cases hname : name = defaultFamily
    · exact Or.inl hname
    · exact Or.inr ((h.families hname).mp hmem)
  reopens {name family} hhas hfamily := by
    refine ⟨?_, h.toSound.reopens.families hhas hfamily⟩
    obtain ⟨families, hopen, -⟩ := Store.openStore_eq J s.disk
    rw [hopen, after_ok, h.record]
    exact hhas

theorem Consistent.of_sameTables {s t : Store} (h : Consistent J s) (hst : t.SameTables s) :
    Consistent J t where
  toSound := h.toSound.of_sameTables hst
  families hname := by
    rw [hst.families, hst.tables]
    exact h.families hname

/-- A store that was written down is consistent where its schema is text and its families are those
of its tables. -/
theorem Consistent.writeDown {s : Store} (hutf8 : s.tables.utf8 = true) (hs : s.tables.Stamped)
    (hdefault : defaultFamily ∈ s.disk.families)
    (hfamilies : ∀ {name : Bytes}, name ≠ defaultFamily →
      (name ∈ s.disk.families ↔ s.tables.has name = true)) : Consistent J (s.writeDown J) where
  utf8 := hutf8
  record := (readSchemaRecord_writeDown hs).mpr hutf8
  hasDefault := hdefault
  families := hfamilies

theorem Consistent.createTable {s : Store} (h : Consistent J s) {db : Database} {table : Table}
    {stamp : Version} (hatomic : s.CreateAtomic db table stamp)
    (hstamped : (after (Store.createTable J db table stamp s)).tables.Stamped) :
    Consistent J (after (Store.createTable J db table stamp s)) := by
  rcases Store.createTable_cases J db table stamp s with ⟨halters, hok, hrun⟩ | ⟨-, e, hrun⟩ |
    ⟨halters, hno, e, hrun⟩
  · rw [hrun, after_ok] at hstamped ⊢
    have htable := hatomic halters
    rw [if_pos hok] at htable
    refine Consistent.writeDown (Schema.utf8_create h.utf8 htable) hstamped ?_
      fun {name} hname => ?_
    · rw [Store.disk_setTables, Store.mem_withFamily]
      exact Or.inr h.hasDefault
    · rw [Store.disk_setTables, Store.mem_withFamily, Store.tables_setTables, Schema.create,
        Schema.has_put, h.families hname]
      by_cases hother : table.name = name
      · simp [hother]
      · simp [hother, Ne.symm hother]
  · rw [hrun]
    exact h
  · rw [hrun, after_error]
    have hsame := hatomic halters
    rw [if_neg hno] at hsame
    -- the table was there already, and its family with it
    have hhas : s.tables.has table.name = true := by
      rw [← hsame, Schema.create, Schema.has_put, if_pos rfl]
      rfl
    have hmem : table.name ∈ s.disk.families := h.agrees.hasFamily hhas
    refine h.of_sameTables ⟨hsame, ?_, ?_⟩
    · rw [Store.disk_setTables, Store.withFamily, if_pos hmem]
    · rw [Store.disk_setTables, Store.schema_withFamily]

theorem Consistent.deleteTable {s : Store} (h : Consistent J s) {db : Database} {name : Bytes}
    {stamp : Version} (hatomic : s.DeleteAtomic db name stamp)
    (hstamped : (after (Store.deleteTable J db name stamp s)).tables.Stamped) :
    Consistent J (after (Store.deleteTable J db name stamp s)) := by
  -- the default family is never dropped, so the one that is is another
  have hother : Store.AltersFamily db s ⟨name, false⟩ → name ≠ defaultFamily := by
    rintro halters rfl
    rcases halters with hno | hno
    · exact hno h.hasDefault
    · cases hno
  rcases Store.deleteTable_cases J db name stamp s with ⟨halters, hok, hrun⟩ | ⟨-, e, hrun⟩ |
    ⟨halters, hno, e, hrun⟩
  · rw [hrun, after_ok] at hstamped ⊢
    have hname := hatomic halters
    rw [if_pos hok] at hname
    refine Consistent.writeDown ((Schema.utf8_remove h.utf8).mpr hname) hstamped ?_
      fun {other} hne => ?_
    · rw [Store.disk_setTables, Store.mem_withoutFamily]
      exact ⟨(hother halters).symm, h.hasDefault⟩
    · rw [Store.disk_setTables, Store.mem_withoutFamily, Store.tables_setTables, Schema.remove,
        Schema.has_put, h.families hne]
      by_cases heq : name = other
      · simp [heq]
      · simp [heq, Ne.symm heq]
  · rw [hrun]
    exact h
  · rw [hrun, after_error]
    have hsame := hatomic halters
    rw [if_neg hno] at hsame
    -- the tombstone was there already, and no family with it
    have hhas : s.tables.has name = false := by
      rw [← hsame, Schema.remove, Schema.has_put, if_pos rfl]
      rfl
    have hmem : name ∉ s.disk.families := by
      rw [h.families (hother halters), hhas]
      exact Bool.false_ne_true
    refine h.of_sameTables ⟨hsame, ?_, ?_⟩
    · rw [Store.disk_setTables, Store.withoutFamily, if_neg hmem]
    · rw [Store.disk_setTables, Store.schema_withoutFamily]

theorem Consistent.mergeSchema {s : Store} (h : Consistent J s) {db : Database} {named : Schema}
    (hatomic : s.MergeAtomic db named)
    (hstamped : (after (Store.mergeSchema J db named s)).tables.Stamped) :
    Consistent J (after (Store.mergeSchema J db named s)) := by
  obtain ⟨halters, hput⟩ := hatomic
  -- a merge that drops the default family is refused
  have hfound : ∀ {change : Schema.Change}, change ∈ (s.tables.merge named).2 →
      change.name = defaultFamily → change.live = true := by
    rintro ⟨name, live⟩ hmem rfl
    -- a change drops a family or makes one
    cases live with
    | true => rfl
    | false =>
      rcases halters _ hmem with hno | hno
      · exact absurd h.hasDefault hno
      · cases hno
  have hfamilies : ∀ name, name ∈ ((s.tables.merge named).2.foldl Store.altered
      (s.setTables (s.tables.merge named).1)).disk.families ↔
        ((s.tables.merge named).2.find? (·.name = name)).elim (name ∈ s.disk.families)
          fun change => change.live = true := by
    intro name
    rw [← Std.ExtTreeMap.isSome_getElem?_iff_mem,
      Store.getElem?_foldl_altered _ (Schema.nodup_changes s.tables named)]
    cases (s.tables.merge named).2.find? (·.name = name) with
    | none => exact Std.ExtTreeMap.isSome_getElem?_iff_mem
    | some change => cases change.live <;> simp
  rcases Store.mergeSchema_cases J db named s with ⟨⟨-, hok⟩, hrun⟩ | ⟨⟨change, hmem, hno⟩, -⟩ |
    ⟨⟨-, hno⟩, e, hrun⟩
  · -- every change went through, and the record was put or there was nothing to put
    rw [hrun, after_ok] at hstamped ⊢
    rw [if_pos hok] at hput
    refine Consistent.writeDown (by simpa using hput) hstamped ?_ fun {name} hname => ?_
    · rw [hfamilies]
      cases hfind : (s.tables.merge named).2.find? (·.name = defaultFamily) with
      | none => exact h.hasDefault
      | some change =>
        exact hfound (List.mem_of_find?_eq_some hfind) (by simpa using List.find?_some hfind)
    · rw [hfamilies, Store.tables_foldl_altered, Store.tables_setTables, Schema.has_merge]
      cases (s.tables.merge named).2.find? (·.name = name) with
      | none => exact h.families hname
      | some change => exact Iff.rfl
  · exact absurd (halters change hmem) hno
  · -- the put failed, so nothing was merged
    rw [hrun, after_error]
    rw [if_neg hno] at hput
    have hnone : (s.tables.merge named).2 = [] :=
      List.eq_nil_iff_forall_not_mem.mpr fun change hmem =>
        Schema.merge_ne_of_mem_changes hmem hput
    rw [hnone, List.foldl_nil, hput]
    exact h.of_sameTables ⟨rfl, rfl, rfl⟩

/-- Writing a record leaves the tables as they are, and puts it into a family there is. -/
theorem Consistent.writeRecord {s : Store} (h : Consistent J s) (db : Database) (name : Bytes)
    (record : Record) : Consistent J (after (Store.writeRecord db name record s)) := by
  rcases Store.writeRecord_cases db name record s with ⟨e, hrun⟩ | ⟨family, hfamily, ⟨-, hrun⟩ |
    ⟨-, hrun⟩⟩
  · rw [hrun]
    exact h
  · rw [hrun]
    exact h
  · rw [hrun, after_ok]
    have hmem : ∀ other, other ∈ (s.written name family record).disk.families ↔
        other ∈ s.disk.families := by
      intro other
      rw [Store.families_written, Std.ExtTreeMap.mem_insert]
      constructor
      · rintro (hother | hother)
        · obtain rfl := Std.LawfulEqCmp.eq_of_compare hother
          exact Std.ExtTreeMap.isSome_getElem?_iff_mem.mp (by rw [hfamily]; rfl)
        · exact hother
      · exact Or.inr
    refine ⟨⟨?_, ?_, (hmem _).mpr h.hasDefault⟩, fun hname => ?_⟩
    · rw [Store.tables_written]
      exact h.utf8
    · rw [Store.tables_written, ← h.record, Store.readSchemaRecord, Store.readSchemaRecord,
        Store.schema_written]
    · rw [hmem, Store.tables_written]
      exact h.families hname

/-- A store that was opened is consistent: its families were made to match its schema. -/
theorem consistent_openStore {disk : Disk} (hdefault : defaultFamily ∈ disk.families) :
    Consistent J (after (Store.openStore J {} disk)) := by
  refine ⟨sound_openStore hdefault, fun {name} hname => ?_⟩
  obtain ⟨families, hopen, hfamilies⟩ := Store.openStore_eq J disk
  rw [hopen, after_ok, ← Std.ExtTreeMap.isSome_getElem?_iff_mem]
  dsimp only
  rw [hfamilies, if_neg hname]
  split_ifs with hhas <;> simp [hhas]

theorem Store.SameTables.altersFamily_iff {s t : Store} (h : t.SameTables s) (db : Database)
    (change : Schema.Change) :
    Store.AltersFamily db t change ↔ Store.AltersFamily db s change := by
  unfold Store.AltersFamily
  rw [h.families]

theorem store_onStore {α : Type} (x : Action α) (n : Node) :
    (after (Node.onStore x n)).store = after (x n.store) := by
  rw [Node.onStore]
  cases x n.store <;> rfl

/-! ### Runs -/

/-- **A step that is atomic leaves a consistent store consistent.** -/
theorem consistent_storeStep {n : Node} (h : Consistent J n.store) {e : StoreEvent}
    (hatomic : Atomic n e) (hstamped : (n.storeStep J e).store.tables.Stamped) :
    Consistent J (n.storeStep J e).store := by
  cases e with
  | create db table stamp =>
    rw [Node.storeStep, store_onStore] at hstamped ⊢
    exact h.createTable hatomic hstamped
  | delete db name stamp =>
    rw [Node.storeStep, store_onStore] at hstamped ⊢
    exact h.deleteTable hatomic hstamped
  | merge db named =>
    rw [Node.storeStep, store_onStore] at hstamped ⊢
    exact h.mergeSchema hatomic hstamped
  | putRoute w request name =>
    rcases Node.createTable_cases J w request name n with hidle |
      ⟨table, stamp, mid, n', hordered, ⟨s, hsame, hn'⟩, hname, hvalid, hdeps, hnew, heq⟩
    · exact h.of_sameTables hidle.sameTables
    · -- a table that is made has a name and dependencies that are text
      rw [Node.storeStep, heq, Node.store_carryOut, hn'] at hstamped ⊢
      rw [hordered.quiet.store] at hsame
      refine (h.of_sameTables hsame).createTable (fun halters => ?_) hstamped
      rw [hsame.altersFamily_iff, hname] at halters
      rw [if_pos (hatomic hnew halters), Table.utf8, hname, Table.utf8_of_isValidName hvalid,
        Bool.true_and, List.all_eq_true]
      exact fun dependency hd => Schema.valid_of_has h.utf8 (hdeps dependency hd)
  | deleteRoute w request name =>
    rcases Node.deleteTable_cases J w request name n with ⟨hidle, -⟩ |
      ⟨stamp, mid, n', hordered, ⟨s, hsame, hn'⟩, hhas, hcarried, heq⟩
    · exact h.of_sameTables hidle.sameTables
    · rw [Node.storeStep, heq, Node.store_carryOut, hn'] at hstamped ⊢
      -- whether it is dropped of the database is asked of the store before the order
      rw [hordered.quiet.store] at hsame
      refine (h.of_sameTables hsame).deleteTable (fun halters => ?_) hstamped
      rw [hsame.altersFamily_iff] at halters
      rw [hsame.tables]
      by_cases hterm : request.term = 0
      · have hlive := hhas.resolve_right fun hno => hno hterm
        rw [if_pos (hatomic.1 hterm hlive halters)]
        exact Schema.valid_of_has h.utf8 hlive
      · have hkept := hatomic.2 hterm (hordered.fence _ hterm) halters
        rwa [(hcarried hterm).1]
  | write db name record =>
    rw [Node.storeStep, store_onStore]
    exact h.writeRecord db name record
  | restart => exact consistent_openStore h.hasDefault

theorem consistent_fresh : Consistent J (Node.fresh J).store :=
  consistent_openStore default_mem_fresh

/-- **Schema operations are atomic where their failures come early.** As long as the stamps are ones
a document keeps, every state of a run whose steps are atomic has its schema, its families and its
record in agreement, and loses no table and no record of one when it is closed and opened. -/
theorem agrees_of_atomic (es : List StoreEvent)
    (hstamped : Always (Node.storeStep J) (fun n => n.store.tables.Stamped) (Node.fresh J) es)
    (hatomic : Throughout (Node.storeStep J) Atomic (Node.fresh J) es) :
    Always (Node.storeStep J) (fun n => Agrees J n.store) (Node.fresh J) es := by
  refine Always.mono (fun n h => Consistent.agrees h) ?_
  exact always_of_throughout (I := fun n : Node => Consistent J n.store)
    (fun n e h hs hC => consistent_storeStep h hC hs) consistent_fresh hstamped hatomic

/-! ### A table whose records are lost -/

/-- A database that fails one kind of call. -/
def failing : Status := .failed (ascii "IO error")

/-- A client's request to create a table, at the node that leads the tables. -/
def createRequest (db : Database) (name : Bytes) : StoreEvent :=
  .putRoute { Seams.leading 1 with db } { method := .put, path := [ascii "table", name] } name

def writeKey (name : Bytes) : StoreEvent :=
  .write {} name { key := ascii "k", value := ascii "v", stamp := { term := 1, count := 2 } }

theorem agrees_of_atomic_create :
    Always (Node.storeStep JsonText.codec) (fun n => Agrees JsonText.codec n.store)
      (Node.fresh JsonText.codec)
      [createRequest { createFamily := fun _ => failing } (ascii "t"),
        createRequest {} (ascii "t"), writeKey (ascii "t"), .restart] :=
  agrees_of_atomic _ (by decide +kernel) (by decide +kernel)

/-- The record of the schema is not written, and asking again finds the table in memory and writes
nothing: the table takes records, and is gone with them once the store is opened again. -/
theorem not_agrees_retried :
    let es := [createRequest { putSchema := failing } (ascii "t"), createRequest {} (ascii "t"),
      writeKey (ascii "t")]
    let closed := run (Node.storeStep JsonText.codec) (Node.fresh JsonText.codec) es
    Always (Node.storeStep JsonText.codec) (fun n => n.store.tables.Stamped)
        (Node.fresh JsonText.codec) es ∧
      closed.store.tables.has (ascii "t") = true ∧
      (closed.store.disk.families[ascii "t"]?.bind (·[Store.storeKey (ascii "k")]?)).isSome ∧
      (closed.restarted JsonText.codec).store.tables.has (ascii "t") = false ∧
      ascii "t" ∉ (closed.restarted JsonText.codec).store.disk.families ∧
      ¬Agrees JsonText.codec closed.store := by
  refine ⟨by decide +kernel, by decide +kernel, by decide +kernel, by decide +kernel,
    by decide +kernel, fun h => ?_⟩
  exact absurd h.record (by decide +kernel)

end AsyncDatabase
