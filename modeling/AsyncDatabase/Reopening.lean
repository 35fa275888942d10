import AsyncDatabase.Library.JsonText
import AsyncDatabase.Library.Run
import AsyncDatabase.Router.Tables

/-!
# Reopening a store

What a node's schema survives: the record `SCHEMA` against the schema in memory, over every run of
requests, of schemas taken from other nodes and of restarts, where the database carries out what it
is asked. (Where it fails is the subject of `AsyncDatabase.Atomicity`.)

`Reopens` is the property and `Kept` the condition on each step; `reopens_iff` says that the one
holds along a run exactly where the other does.
-/

namespace AsyncDatabase

open Bytes (ascii)
open Machine Throwing

variable (J : JsonCodec)

/-- What can happen to the schema of a node. -/
inductive SchemaEvent where
  | put (w : Seams) (request : Request) (name : Bytes)
  | delete (w : Seams) (request : Request) (name : Bytes)
  /-- A pass takes the schema another node answered with. -/
  | merge (text : Bytes)
  | restart

namespace Node

/-- One step of a node whose database carries out what it is asked. -/
def schemaStep (n : Node) : SchemaEvent → Node
  | .put w request name => after (createTable J { w with db := {} } request name n)
  | .delete w request name => after (deleteTable J { w with db := {} } request name n)
  | .merge text => after (onStore (Store.mergeSchema J {} (Schema.toSchema J text)) n)
  | .restart => n.restarted J

end Node

/-- The record of the schema parses back to the schema in memory, and opening the store again keeps
the family of every table of it. -/
structure Reopens (s : Store) : Prop where
  record : Store.readSchemaRecord J s.disk = s.tables
  families : ∀ {name : Bytes} {family : Family}, s.tables.has name = true →
    s.disk.families[name]? = some family →
    (after (Store.openStore J {} s.disk)).disk.families[name]? = some family

/-- The step puts nothing into the schema that its record does not give back: no delete carried here
in a term that is let through is of a name that is not text, and no schema taken from another node
drops a table called `default`. -/
def Kept (n : Node) : SchemaEvent → Prop
  | .delete _ request name =>
    request.term ≠ 0 → n.accepted tablePartition ≤ request.term → Utf8.valid name = true
  | .merge text =>
    ⟨defaultFamily, false⟩ ∉ (n.store.tables.merge (Schema.toSchema J text)).2
  | _ => True

/-! ### What a step keeps -/

/-- The store's schema is text, it is what the record holds, and there is a default family. -/
structure Sound (s : Store) : Prop where
  utf8 : s.tables.utf8 = true
  record : Store.readSchemaRecord J s.disk = s.tables
  hasDefault : defaultFamily ∈ s.disk.families

variable {J}

theorem Sound.of_sameTables {s t : Store} (h : Sound J s) (hst : t.SameTables s) : Sound J t where
  utf8 := by rw [hst.tables]; exact h.utf8
  record := by
    rw [hst.tables, ← h.record, Store.readSchemaRecord, Store.readSchemaRecord, hst.schema]
  hasDefault := by rw [hst.families]; exact h.hasDefault

/-- A schema that was just written down is what its record holds, where it is text. -/
theorem readSchemaRecord_writeDown {s : Store} (hs : s.tables.Stamped) :
    Store.readSchemaRecord J (s.writeDown J).disk = s.tables ↔ s.tables.utf8 = true := by
  rw [Store.readSchemaRecord, Store.schema_writeDown]
  dsimp only
  rw [Schema.toSchema_serialize_eq_iff J hs.fits]
  exact ⟨And.left, fun h => ⟨h, hs⟩⟩

theorem Sound.reopens {s : Store} (h : Sound J s) : Reopens J s where
  record := h.record
  families {name family} hhas hfamily := by
    obtain ⟨families, hopen, hfamilies⟩ := Store.openStore_eq J s.disk
    rw [hopen, after_ok]
    have := hfamilies name
    rw [h.record, if_pos hhas, hfamily] at this
    exact this

theorem utf8_readSchemaRecord (disk : Disk) : (Store.readSchemaRecord J disk).utf8 = true := by
  unfold Store.readSchemaRecord
  split
  · rfl
  · exact Schema.utf8_toSchema J _

/-- A store that was opened is sound. -/
theorem sound_openStore {disk : Disk} (hdefault : defaultFamily ∈ disk.families) :
    Sound J (after (Store.openStore J {} disk)) := by
  obtain ⟨families, hopen, hfamilies⟩ := Store.openStore_eq J disk
  rw [hopen, after_ok]
  refine ⟨utf8_readSchemaRecord disk, rfl, ?_⟩
  rw [← Std.ExtTreeMap.isSome_getElem?_iff_mem] at hdefault ⊢
  dsimp only
  rw [hfamilies defaultFamily, if_pos (Eq.refl defaultFamily)]
  split_ifs
  · rfl
  · exact hdefault

theorem Sound.createTable {s : Store} (h : Sound J s) {table : Table} {stamp : Version}
    (htable : table.utf8 = true)
    (hstamped : (after (Store.createTable J {} table stamp s)).tables.Stamped) :
    Sound J (after (Store.createTable J {} table stamp s)) := by
  rcases Store.createTable_cases J {} table stamp s with ⟨-, -, hrun⟩ | ⟨-, e, hrun⟩ | ⟨-, hno, -⟩
  · rw [hrun, after_ok] at hstamped ⊢
    have hutf8 : (s.tables.create table stamp).utf8 = true := Schema.utf8_create h.utf8 htable
    refine ⟨hutf8, (readSchemaRecord_writeDown hstamped).mpr hutf8, ?_⟩
    rw [Store.families_writeDown, Store.disk_setTables, ← Std.ExtTreeMap.isSome_getElem?_iff_mem,
      Store.getElem?_withFamily]
    split_ifs
    · rfl
    · exact Std.ExtTreeMap.isSome_getElem?_iff_mem.mpr h.hasDefault
  · rw [hrun]
    exact h
  · exact absurd rfl hno

/-- A delete that the database carries out leaves a sound store exactly where its name is text. -/
theorem sound_deleteTable_iff {s : Store} (h : Sound J s) {name : Bytes} {stamp : Version}
    (hstamped : (after (Store.deleteTable J {} name stamp s)).tables.Stamped) :
    (Sound J (after (Store.deleteTable J {} name stamp s)) ↔ Utf8.valid name = true) ∧
      (Store.readSchemaRecord J (after (Store.deleteTable J {} name stamp s)).disk =
        (after (Store.deleteTable J {} name stamp s)).tables → Utf8.valid name = true) := by
  have hfails := Store.altersFamily_sound_iff h.hasDefault ⟨name, false⟩
  have hvalid : Utf8.valid defaultFamily = true := Utf8.valid_of_forall_lt (by decide +kernel)
  rcases Store.deleteTable_cases J {} name stamp s with ⟨halters, -, hrun⟩ | ⟨hno, e, hrun⟩ |
    ⟨-, hno, -⟩
  · rw [hrun, after_ok] at hstamped ⊢
    have hrecord := readSchemaRecord_writeDown (J := J) hstamped
    rw [Store.tables_writeDown, Store.tables_setTables, Schema.utf8_remove h.utf8] at hrecord
    refine ⟨⟨fun hsound => hrecord.mp hsound.record, fun hname => ?_⟩, hrecord.mp⟩
    refine ⟨(Schema.utf8_remove h.utf8).mpr hname, hrecord.mpr hname, ?_⟩
    rw [Store.families_writeDown, Store.disk_setTables, ← Std.ExtTreeMap.isSome_getElem?_iff_mem,
      Store.getElem?_withoutFamily]
    split_ifs with hother
    · -- the default family is never dropped
      exact absurd halters (hfails.mpr (by rw [hother]))
    · exact Std.ExtTreeMap.isSome_getElem?_iff_mem.mpr h.hasDefault
  · obtain rfl : name = defaultFamily := congrArg Schema.Change.name (hfails.mp hno)
    rw [hrun]
    exact ⟨⟨fun _ => hvalid, fun _ => h⟩, fun _ => hvalid⟩
  · exact absurd rfl hno

/-- A merge that the database carries out leaves a sound store exactly where it drops no table
called `default`. -/
theorem sound_mergeSchema_iff {s : Store} (h : Sound J s) {named : Schema}
    (hnamed : named.utf8 = true)
    (hstamped : (after (Store.mergeSchema J {} named s)).tables.Stamped) :
    (⟨defaultFamily, false⟩ ∉ (s.tables.merge named).2 →
        Sound J (after (Store.mergeSchema J {} named s))) ∧
      (Store.readSchemaRecord J (after (Store.mergeSchema J {} named s)).disk =
          (after (Store.mergeSchema J {} named s)).tables →
        ⟨defaultFamily, false⟩ ∉ (s.tables.merge named).2) := by
  have hfails := Store.altersFamily_sound_iff (s := s.setTables (s.tables.merge named).1)
    h.hasDefault
  rcases Store.mergeSchema_cases J {} named s with ⟨⟨hall, -⟩, hrun⟩ |
    ⟨⟨change, hmem, hno⟩, e, families, hrun⟩ | ⟨⟨-, hno⟩, -⟩
  · rw [hrun, after_ok] at hstamped ⊢
    have hdrop : ⟨defaultFamily, false⟩ ∉ (s.tables.merge named).2 := fun hmem =>
      (hfails _).mpr rfl (hall _ hmem)
    have hmerged := Schema.utf8_merge h.utf8 hnamed
    refine ⟨fun _ => ⟨?_, ?_, ?_⟩, fun _ => hdrop⟩
    · simpa using hmerged
    · exact (readSchemaRecord_writeDown hstamped).mpr (by simpa using hmerged)
    · rw [Store.families_writeDown, ← Std.ExtTreeMap.isSome_getElem?_iff_mem,
        Store.getElem?_foldl_altered _ (Schema.nodup_changes s.tables named)]
      split
      · exact Std.ExtTreeMap.isSome_getElem?_iff_mem.mpr h.hasDefault
      · rename_i change hfind
        obtain ⟨name, live⟩ := change
        have hname : name = defaultFamily := by simpa using List.find?_some hfind
        subst hname
        cases live with
        | true => rfl
        | false => exact absurd (List.mem_of_find?_eq_some hfind) hdrop
  · obtain rfl := (hfails change).mp hno
    rw [hrun, after_error]
    refine ⟨fun hdrop => absurd hmem hdrop, fun hrecord => ?_⟩
    -- the record is the one from before, and the schema in memory is not
    have hold : Store.readSchemaRecord J s.disk = (s.tables.merge named).1 := hrecord
    rw [h.record] at hold
    exact absurd hold.symm (Schema.merge_ne_of_mem_changes hmem)
  · exact absurd rfl hno

/-! ### Runs -/

/-- A step that puts nothing into the schema that is not text keeps it sound, and one that does not
is not one the record survives. -/
theorem sound_schemaStep {n : Node} (h : Sound J n.store) (e : SchemaEvent)
    (hstamped : (n.schemaStep J e).store.tables.Stamped) :
    (Kept J n e → Sound J (n.schemaStep J e).store) ∧
      (Reopens J (n.schemaStep J e).store → Kept J n e) := by
  cases e with
  | put w request name =>
    refine ⟨fun _ => ?_, fun _ => trivial⟩
    rcases Node.createTable_cases J { w with db := {} } request name n with hidle |
      ⟨table, stamp, mid, n', hordered, ⟨s, hsame, hn'⟩, hname, hvalid, hdeps, -, heq⟩
    · exact h.of_sameTables hidle.sameTables
    · rw [Node.schemaStep, heq, Node.store_carryOut, hn'] at hstamped ⊢
      have hs : Sound J s := h.of_sameTables (by rw [← hordered.quiet.store]; exact hsame)
      refine hs.createTable ?_ hstamped
      rw [Table.utf8, hname, Table.utf8_of_isValidName hvalid, Bool.true_and, List.all_eq_true]
      exact fun dependency hd => Schema.valid_of_has h.utf8 (hdeps dependency hd)
  | delete w request name =>
    rcases Node.deleteTable_cases J { w with db := {} } request name n with ⟨hidle, hno⟩ |
      ⟨stamp, mid, n', hordered, ⟨s, hsame, hn'⟩, hhas, hcarried, heq⟩
    · exact ⟨fun _ => h.of_sameTables hidle.sameTables, fun _ hterm hfence =>
        absurd ⟨hterm, hfence⟩ hno⟩
    · rw [Node.schemaStep, heq, Node.store_carryOut, hn'] at hstamped ⊢
      have hs : Sound J s := h.of_sameTables (by rw [← hordered.quiet.store]; exact hsame)
      obtain ⟨hiff, hbreak⟩ := sound_deleteTable_iff hs hstamped
      refine ⟨fun hkept => hiff.mpr ?_, fun hreopens _ _ => hbreak hreopens.record⟩
      by_cases hterm : request.term = 0
      · exact Schema.valid_of_has h.utf8 (hhas.resolve_right fun hno => hno hterm)
      · exact hkept hterm (hordered.fence _ hterm)
  | merge text =>
    have hstore : (n.schemaStep J (.merge text)).store =
        after (Store.mergeSchema J {} (Schema.toSchema J text) n.store) := by
      rw [Node.schemaStep, Node.onStore]
      cases Store.mergeSchema J {} (Schema.toSchema J text) n.store <;> rfl
    rw [hstore] at hstamped ⊢
    obtain ⟨hkeep, hbreak⟩ := sound_mergeSchema_iff h (Schema.utf8_toSchema J text) hstamped
    exact ⟨hkeep, fun hreopens => hbreak hreopens.record⟩
  | restart => exact ⟨fun _ => sound_openStore h.hasDefault, fun _ => trivial⟩

theorem default_mem_fresh : defaultFamily ∈ Disk.fresh.families := by
  rw [Disk.fresh]
  exact Std.ExtTreeMap.mem_insert_self

theorem sound_fresh : Sound J (Node.fresh J).store := sound_openStore default_mem_fresh

/-- **Which runs lose no table.** As long as the stamps are ones a document keeps, the record of the
schema survives every step of a run, and with it the family of every table, exactly if each step is
one that puts nothing into the schema that is not text. -/
theorem reopens_iff (es : List SchemaEvent)
    (hstamped : Always (Node.schemaStep J) (fun n => n.store.tables.Stamped) (Node.fresh J) es) :
    Always (Node.schemaStep J) (fun n => Reopens J n.store) (Node.fresh J) es ↔
      Throughout (Node.schemaStep J) (Kept J) (Node.fresh J) es :=
  always_iff_throughout (I := fun n : Node => Sound J n.store) (fun _ h => h.reopens)
    (fun _ e h hs hkept => (sound_schemaStep h e hs).1 hkept)
    (fun _ e h hs hreopens => (sound_schemaStep h e hs).2 hreopens) sound_fresh hstamped

/-! ### A run that loses every table -/

/-- A client's request to create a table. -/
def putTable (name : Bytes) : SchemaEvent :=
  .put (.leading 1) { method := .put, path := [ascii "table", name] } name

/-- A delete that the leader of the tables ordered, carried here. -/
def carriedDelete (name : Bytes) : SchemaEvent :=
  .delete {}
    (Request.carried { method := .delete, path := [ascii "table", name], forwarded := true } 2 1)
    name

theorem reopens_iff_create :
    Always (Node.schemaStep JsonText.codec) (fun n => Reopens JsonText.codec n.store)
      (Node.fresh JsonText.codec) [putTable (ascii "t"), carriedDelete (ascii "u"), .restart] :=
  (reopens_iff [putTable (ascii "t"), carriedDelete (ascii "u"), .restart]
    (by decide +kernel)).mpr ⟨trivial, fun _ _ => by decide +kernel, trivial, trivial⟩

/-- A carried delete of a name that is no UTF-8 leaves a record that parses back to nothing, and the
table that was live has no family once the store is opened again. -/
theorem not_reopens_carriedDelete :
    let es := [putTable (ascii "t"), carriedDelete [0xff]]
    let closed := run (Node.schemaStep JsonText.codec) (Node.fresh JsonText.codec) es
    Always (Node.schemaStep JsonText.codec) (fun n => n.store.tables.Stamped)
        (Node.fresh JsonText.codec) es ∧
      closed.store.tables.has (ascii "t") = true ∧
      ascii "t" ∈ closed.store.disk.families ∧
      ascii "t" ∉ (closed.restarted JsonText.codec).store.disk.families ∧
      ¬Reopens JsonText.codec closed.store := by
  refine ⟨by decide +kernel, by decide +kernel, by decide +kernel, by decide +kernel, fun h => ?_⟩
  exact absurd h.record (by decide +kernel)

end AsyncDatabase
