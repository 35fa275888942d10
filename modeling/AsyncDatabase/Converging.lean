import AsyncDatabase.Copy
import AsyncDatabase.Importing
import AsyncDatabase.Library.Newest
import AsyncDatabase.Stamps

/-!
# Copies that are handed the same records

A copy of a table is handed records one at a time (`write_record`) and in files (`import_records`).
Both keep the newer of what is held and what comes in, one with an equal version put again and the
other with it left. `copies_converge` says that two copies that were handed the same records hold
the same, whatever the order, the grouping and the repeats, and stand at the same terms.
-/

namespace AsyncDatabase

open Bytes (ascii)
open Machine Newest Throwing

/-- A record as the store holds it. -/
def Record.stored (record : Record) : Bytes := Record.composeValue record.stamp record.value

/-- A record as a file carries it. -/
def Record.carried (record : Record) : Store.Carried := (Store.storeKey record.key, record.stored)

def Record.rank (record : Record) : ℤ ×ₗ ℕ := record.stamp.rank

/-- How records are handed to a copy. -/
inductive Delivery where
  | written (record : Record)
  | imported (file : List Record)

namespace Delivery

def records : Delivery → List Record
  | written record => [record]
  | imported file => file

/-- The keys of a file ascend. -/
def IsFile : Delivery → Prop
  | written _ => True
  | imported file => ((file.map Record.carried).map Prod.fst).Pairwise (· < ·)

end Delivery

/-- What a table is handed becomes of its store. -/
def Store.deliver (name : Bytes) (s : Store) : Delivery → Store
  | .written record => after (writeRecord {} name record s)
  | .imported file => after (importRecords {} name (file.map Record.carried) s)

/-- The calls hand over the records of a collection, and no others. -/
structure Delivers (S : Set Record) (calls : List Delivery) : Prop where
  files : ∀ call ∈ calls, call.IsFile
  all : ∀ record, record ∈ S ↔ ∃ call ∈ calls, record ∈ call.records

/-- The records of a key, as the store spells it. -/
def recordsOf (S : Set Record) (key : Bytes) : Set Record :=
  {record ∈ S | Store.storeKey record.key = key}

/-- A family holds the newest record of every key, of those that were handed over. -/
def HoldsNewest (S : Set Record) (family : Family) : Prop :=
  ∀ key, ∃ held : Option Record, family[key]? = held.map Record.stored ∧
    IsNewest Record.rank (recordsOf S key) held

/-! ### What is held -/

theorem recordsOf_union (S T : Set Record) (key : Bytes) :
    recordsOf (S ∪ T) key = recordsOf T key ∪ recordsOf S key := by
  ext record
  simp only [recordsOf, Set.mem_union, Set.mem_ofPred_eq]
  tauto

/-- Which of two stored records is newer is which has the later version. -/
theorem isNewer_stored {a b : Record} (ha : a.Stamped) (hb : b.Stamped) :
    Record.isNewer a.stored b.stored = true ↔ b.rank < a.rank := by
  rw [Record.stored, Record.stored, isNewer_composeValue ha.1 hb.1 ha.2 hb.2,
    Version.isNewer_iff_rank_lt]
  rfl

variable {S : Set Record} {family : Family}

/-- A held record is one that was handed over. -/
theorem IsNewest.mem_recordsOf {key : Bytes} {record : Record}
    (h : IsNewest Record.rank (recordsOf S key) (some record)) :
    record ∈ S ∧ Store.storeKey record.key = key := h.1

/-- A record that is written is kept, unless a newer one is held. -/
theorem HoldsNewest.write (h : HoldsNewest S family)
    (hS : ∀ record ∈ S, record.Stamped) {record : Record} (hrecord : record.Stamped) :
    HoldsNewest (S ∪ {record})
      (if family[Store.storeKey record.key]?.any (Record.isNewer · record.stored) then family
        else family.insert (Store.storeKey record.key) record.stored) := by
  intro key
  rw [recordsOf_union]
  obtain ⟨held, hheld, hnewest⟩ := h key
  by_cases hkey : Store.storeKey record.key = key
  · -- of the new records one has this key
    have hone : recordsOf {record} key = {record} := by
      ext other
      simp only [recordsOf, Set.mem_ofPred_eq, Set.mem_singleton_iff, and_iff_left_iff_imp]
      rintro rfl
      exact hkey
    rw [hone, hkey, hheld]
    cases held with
    | none =>
      refine ⟨some record, ?_, (newest_singleton record).keeps hnewest ⟨.inl rfl, ?_⟩⟩
      · exact Std.ExtTreeMap.getElem?_insert_self
      · rintro x (hx | hx)
        · exact ⟨record, rfl, (Option.some.inj hx) ▸ le_rfl⟩
        · cases hx
    | some held =>
      have hstamped := hS held (IsNewest.mem_recordsOf hnewest).1
      have hnewer := isNewer_stored hstamped hrecord
      rw [Option.map_some, Option.any_some]
      -- what is held is newer, and the new record is dropped
      split_ifs with hlater
      · refine ⟨some held, hheld, (newest_singleton record).keeps hnewest ⟨.inr rfl, ?_⟩⟩
        rintro x (hx | hx)
        · exact ⟨held, rfl, (Option.some.inj hx) ▸ (hnewer.mp hlater).le⟩
        · exact ⟨held, rfl, (Option.some.inj hx) ▸ le_rfl⟩
      · -- the new record takes the place of what is held
        refine ⟨some record, ?_, (newest_singleton record).keeps hnewest ⟨.inl rfl, ?_⟩⟩
        · exact Std.ExtTreeMap.getElem?_insert_self
        · rintro x (hx | hx)
          · exact ⟨record, rfl, (Option.some.inj hx) ▸ le_rfl⟩
          · exact ⟨record, rfl, (Option.some.inj hx) ▸ not_lt.mp fun hlt => hlater (hnewer.mpr hlt)⟩
  · -- another key is left alone
    have hnone : recordsOf {record} key = ∅ := by
      refine Set.eq_empty_of_forall_notMem fun other hother => hkey ?_
      rw [← Set.mem_singleton_iff.mp hother.1]
      exact hother.2
    rw [hnone, Set.empty_union]
    refine ⟨held, ?_, hnewest⟩
    split_ifs with hnewer
    · exact hheld
    · rw [Std.ExtTreeMap.getElem?_insert, if_neg (by simpa using hkey), hheld]

/-- The value a file has for a key is that of its one record of the key. -/
theorem valueIn_carried (file : List Record) (key : Bytes) :
    valueIn (file.map Record.carried) key =
      (file.find? fun record => Store.storeKey record.key = key).map Record.stored := by
  rw [valueIn, List.find?_map, Option.map_map]
  rfl

/-- Of the records of a file, its one record of a key is the newest. -/
theorem newest_find? {file : List Record} (hfile : ((file.map Record.carried).map Prod.fst).Nodup)
    (key : Bytes) :
    IsNewest Record.rank (recordsOf {record | record ∈ file} key)
      (file.find? fun record => Store.storeKey record.key = key) := by
  have hset : recordsOf {record | record ∈ file} key =
      {record | (file.find? fun record => Store.storeKey record.key = key) = some record} := by
    ext record
    constructor
    · rintro ⟨hmem, hkey⟩
      cases hfind : file.find? fun record => Store.storeKey record.key = key with
      | none => exact absurd (decide_eq_true hkey) (List.find?_eq_none.mp hfind record hmem)
      | some other =>
        have hother : Store.storeKey other.key = key := by simpa using List.find?_some hfind
        rw [List.map_map] at hfile
        obtain rfl : other = record :=
          List.inj_on_of_nodup_map hfile (List.mem_of_find?_eq_some hfind)
          hmem (hother.trans hkey.symm)
        rfl
    · intro hfind
      exact ⟨List.mem_of_find?_eq_some hfind, by simpa using List.find?_some hfind⟩
  rw [hset]
  exact newest_toSet _ _

/-- Of what a file has for a key and what is held, the newer is kept. -/
theorem HoldsNewest.ingest (h : HoldsNewest S family) (hS : ∀ record ∈ S, record.Stamped)
    {file : List Record} (hfile : ((file.map Record.carried).map Prod.fst).Nodup)
    (hstamped : ∀ record ∈ file, record.Stamped) :
    HoldsNewest (S ∪ {record | record ∈ file})
      (Store.ingest family ((file.map Record.carried).filter (Store.takes family))) := by
  intro key
  obtain ⟨held, hheld, hnewest⟩ := h key
  have hincoming := newest_find? hfile key
  rw [recordsOf_union]
  refine ⟨_, ?_, hincoming.join hnewest⟩
  rw [Store.getElem?_ingest_takes hfile, hheld, valueIn_carried]
  cases hfind : file.find? fun record => Store.storeKey record.key = key with
  | none => cases held <;> rfl
  | some incoming =>
    cases held with
    | none => rfl
    | some held =>
      have hnewer := isNewer_stored (hstamped incoming (List.mem_of_find?_eq_some hfind))
        (hS held (IsNewest.mem_recordsOf hnewest).1)
      simp only [Option.map_some, mergeValue, join, hnewer]
      split_ifs <;> rfl

/-! ### A copy -/

/-- The partition and the term of a record. -/
def Record.termed (record : Record) : Partition × ℤ := (partitionOf record.key, record.stamp.term)

/-- A copy of a table that was handed a list of records: it holds the newest of each key, and stands
at the newest terms. -/
structure Store.Copies (s : Store) (name : Bytes) (handed : List Record) : Prop where
  table : ∃ family, s.disk.families[name]? = some family ∧
    HoldsNewest {record | record ∈ handed} family
  terms : TracksTerms s { records := handed.map Record.termed }
  stamped : ∀ record ∈ handed, record.Stamped

theorem filterMap_termOf_carried {file : List Record} (hstamped : ∀ record ∈ file, record.Stamped) :
    (file.map Record.carried).filterMap Ledger.termOf = file.map Record.termed := by
  rw [List.filterMap_map, ← List.filterMap_eq_map]
  refine List.filterMap_congr fun record hrecord => ?_
  have hheld := Store.partitionHeld_storeKey record.key
  have hversion := Record.versionOf_composeValue (hstamped record hrecord).1 record.value
  have hlt : Store.partitionHeld record.carried.1 < partitionCount :=
    hheld ▸ (partitionOf record.key).isLt
  rw [Function.comp, Ledger.termOf, dif_pos hlt]
  exact congrArg some (Prod.ext (Fin.ext hheld) (congrArg Version.term hversion))

theorem Store.Copies.deliver {s : Store} {name : Bytes} {handed : List Record}
    (h : s.Copies name handed)
    {call : Delivery} (hfile : call.IsFile) (hstamped : ∀ record ∈ call.records, record.Stamped) :
    (s.deliver name call).Copies name (call.records ++ handed) := by
  obtain ⟨family, hfamily, hnewest⟩ := h.table
  have hall : ∀ record ∈ call.records ++ handed, record.Stamped :=
    List.forall_mem_append.mpr ⟨hstamped, h.stamped⟩
  -- what was handed over in all
  have hset : {record | record ∈ call.records ++ handed} =
      {record | record ∈ handed} ∪ {record | record ∈ call.records} := by
    ext record
    simp [or_comm]
  cases call with
  | written record =>
    have hrecord := hstamped record (List.mem_singleton_self record)
    have hterms := h.terms.writeRecord hfamily hrecord.1 hrecord.2
    refine ⟨?_, hterms, hall⟩
    have hwrite := hnewest.write h.stamped hrecord
    have hone : {other | other ∈ (Delivery.written record).records} = {record} := by
      ext other
      exact List.mem_singleton
    rw [hset, hone, Store.deliver, Store.writeRecord_eq hfamily, after_ok]
    change ∃ _, (if family[Store.storeKey record.key]?.any (Record.isNewer · record.stored) =
      true then _
      else _ : Store).disk.families[name]? = _ ∧ _
    -- the write finds a newer record, or puts its own
    by_cases hnewer : family[Store.storeKey record.key]?.any (Record.isNewer · record.stored) = true
    · rw [if_pos hnewer] at hwrite ⊢
      exact ⟨family, hfamily, hwrite⟩
    · rw [if_neg hnewer] at hwrite ⊢
      refine ⟨family.insert (Store.storeKey record.key) record.stored, ?_, hwrite⟩
      rw [Store.families_written]
      exact Std.ExtTreeMap.getElem?_insert_self
  | imported file =>
    -- a stamped record is in a term from zero on
    have hnonneg : ∀ carried ∈ file.map Record.carried, 0 ≤ (Record.versionOf carried.2).term := by
      intro carried hcarried
      obtain ⟨record, hrecord, rfl⟩ := List.mem_map.mp hcarried
      have hversion := Record.versionOf_composeValue (hstamped record hrecord).1 record.value
      exact (congrArg Version.term hversion).ge.trans' (hstamped record hrecord).2
    have hterms := h.terms.importRecords hfamily hnonneg
    have hrecords : (file.map Record.carried).filterMap Ledger.termOf = file.map Record.termed :=
      filterMap_termOf_carried hstamped
    rw [hrecords] at hterms
    dsimp only at hterms
    rw [← List.map_append] at hterms
    refine ⟨?_, hterms, hall⟩
    rw [hset]
    by_cases hempty : file = []
    · subst hempty
      refine ⟨family, hfamily, ?_⟩
      have hnone : {record | record ∈ (Delivery.imported []).records} = (∅ : Set Record) :=
        Set.eq_empty_of_forall_notMem fun _ => List.not_mem_nil
      rw [hnone, Set.union_empty]
      exact hnewest
    · -- a file has each key once
      have hnodup : ((file.map Record.carried).map Prod.fst).Nodup := by
        refine List.Pairwise.imp (fun {key other} hlt heq => ?_) hfile
        subst heq
        exact List.lt_irrefl key hlt
      obtain ⟨families, hrun, hfamilies⟩ :=
        Store.importRecords_eq (mt List.map_eq_nil_iff.mp hempty) hfamily
      rw [Store.deliver, hrun, after_ok]
      exact ⟨_, (hfamilies name).trans (if_pos rfl), hnewest.ingest h.stamped hnodup hstamped⟩

/-- What is kept of a copy along the calls, and the records they hand over. -/
theorem Store.Copies.run {name : Bytes} :
    ∀ {calls : List Delivery} {s : Store} {before : List Record},
    s.Copies name before → (∀ call ∈ calls, call.IsFile) →
    (∀ call ∈ calls, ∀ record ∈ call.records, record.Stamped) →
    ∃ handed, (run (Store.deliver name) s calls).Copies name handed ∧
      ∀ record, record ∈ handed ↔ record ∈ before ∨ ∃ call ∈ calls, record ∈ call.records
  | [], _, before, h, _, _ => ⟨before, h, fun record => by simp⟩
  | call :: calls, s, before, h, hfiles, hstamped => by
    obtain ⟨handed, hcopies, hhanded⟩ :=
      (h.deliver (hfiles call List.mem_cons_self) (hstamped call List.mem_cons_self)).run
        (fun later hlater => hfiles later (List.mem_cons_of_mem _ hlater))
        (fun later hlater => hstamped later (List.mem_cons_of_mem _ hlater))
    refine ⟨handed, hcopies, fun record => (hhanded record).trans ?_⟩
    rw [List.mem_append, List.exists_mem_cons_iff, or_comm (a := record ∈ call.records), or_assoc]

/-- A store with an empty table that nothing in a term was put in. -/
structure Store.StartsEmpty (s : Store) (name : Bytes) : Prop where
  table : s.disk.families[name]? = some ∅
  terms : ∀ partition, s.terms partition = 0 ∧ (s.disk.terms partition).getD 0 = 0
  others : ∀ (other key value : Bytes) (family : Family), s.disk.families[other]? = some family →
    family[key]? = some value → (Record.versionOf value).term = 0

theorem Store.StartsEmpty.copies {s : Store} {name : Bytes} (h : s.StartsEmpty name) :
    s.Copies name [] where
  table := by
    refine ⟨∅, h.table, fun key => ⟨none, Std.ExtTreeMap.getElem?_empty, ?_⟩⟩
    exact Set.eq_empty_of_forall_notMem fun record hrecord => List.not_mem_nil hrecord.1
  terms := by
    refine ⟨fun partition term => ?_, fun partition =>
      ?_, fun {_ _ _ _} hfamily hvalue {partition} _ => ?_⟩
    · rw [(h.terms partition).1]
      simp
    · rw [(h.terms partition).2, (h.terms partition).1]
    · rw [h.others _ _ _ _ hfamily hvalue, (h.terms partition).1]
      exact ⟨le_rfl, le_rfl⟩
  stamped _ hrecord := absurd hrecord List.not_mem_nil

/-- Equal versions of one key mean equal values. -/
def OneValue (S : Set Record) : Prop :=
  ∀ a ∈ S, ∀ b ∈ S, a.key = b.key → a.stamp = b.stamp → a.value = b.value

/-- There is one family that holds the newest of the records. -/
theorem HoldsNewest.unique (hS : OneValue S) {other : Family} (h : HoldsNewest S family)
    (h' : HoldsNewest S other) : family = other := by
  ext1 key
  obtain ⟨held, hheld, hnewest⟩ := h key
  obtain ⟨held', hheld', hnewest'⟩ := h' key
  have hcoherent : Coherent Record.rank (recordsOf S key) := by
    rintro x ⟨hx, hxkey⟩ y ⟨hy, hykey⟩ hrank
    have hkey : x.key = y.key := Store.storeKey_injective (hxkey.trans hykey.symm)
    have hstamp : x.stamp = y.stamp := Version.rank_inj.mp hrank
    have hvalue := hS x hx y hy hkey hstamp
    cases x
    cases y
    cases hkey
    cases hstamp
    cases hvalue
    rfl
  rw [hheld, hheld', hnewest.unique hcoherent hnewest']

/-- The terms of the records of a partition, and no term. -/
def termsOf (S : Set Record) (partition : Partition) : Set ℤ :=
  {0} ∪ {term | ∃ record ∈ S, partitionOf record.key = partition ∧ record.stamp.term = term}

/-- What a copy holds once the records were handed to it. -/
theorem Delivers.copies {s : Store} {name : Bytes} {calls : List Delivery} (h : Delivers S calls)
    (hstamped : ∀ record ∈ S, record.Stamped) (hs : s.StartsEmpty name) :
    (∃ family, (run (Store.deliver name) s calls).disk.families[name]? = some family ∧
      HoldsNewest S family) ∧
    ∀ partition, IsGreatest (termsOf S partition)
      ((run (Store.deliver name) s calls).terms partition) ∧
      ((run (Store.deliver name) s calls).disk.terms partition).getD 0 =
        (run (Store.deliver name) s calls).terms partition := by
  obtain ⟨handed, hcopies, hhanded⟩ := hs.copies.run h.files
    fun call hcall record hrecord => hstamped record ((h.all record).mpr ⟨call, hcall, hrecord⟩)
  have hset : ∀ record, record ∈ handed ↔ record ∈ S := fun record =>
    (hhanded record).trans ((or_iff_right List.not_mem_nil).trans (h.all record).symm)
  have hsame : {record | record ∈ handed} = S := Set.ext hset
  refine ⟨hsame ▸ hcopies.table, fun partition => ⟨⟨?_, ?_⟩, hcopies.terms.onDisk partition⟩⟩
  · -- the term the partition stands at is that of a record, or none
    rcases (hcopies.terms.newest partition _).mp le_rfl with hzero | ⟨_, hmem, rfl, hle⟩
    · exact .inl (le_antisymm hzero (hcopies.terms.nonneg partition))
    · obtain ⟨record, hrecord, rfl⟩ := List.mem_map.mp hmem
      refine .inr ⟨record, (hset record).mp hrecord, rfl, le_antisymm ?_ hle⟩
      exact (hcopies.terms.newest _ _).mpr (.inr ⟨_, hmem, rfl, le_rfl⟩)
  · rintro term (hzero | ⟨record, hrecord, rfl, rfl⟩)
    · rw [Set.mem_singleton_iff.mp hzero]
      exact hcopies.terms.nonneg partition
    · exact (hcopies.terms.newest _ _).mpr
        (.inr ⟨_, List.mem_map_of_mem ((hset record).mpr hrecord), rfl, le_rfl⟩)

/-- **Copies that were handed the same records are the same**: they hold the newest of the records
of every key, and stand at the newest term of each partition, in memory and in the record of it on
disk, whichever way and in whichever order they came by the records. -/
theorem copies_converge {S : Set Record}
    (hstamped : ∀ record ∈ S, record.Stamped) (hone : OneValue S)
    {name : Bytes} {s t : Store} (hs : s.StartsEmpty name) (ht : t.StartsEmpty name)
    {calls calls' : List Delivery} (h : Delivers S calls) (h' : Delivers S calls') :
    (∃ family, (run (Store.deliver name) s calls).disk.families[name]? = some family ∧
      (run (Store.deliver name) t calls').disk.families[name]? = some family ∧
      HoldsNewest S family) ∧
    ∀ partition, IsGreatest (termsOf S partition)
      ((run (Store.deliver name) s calls).terms partition) ∧
      IsGreatest (termsOf S partition)
        (((run (Store.deliver name) s calls).disk.terms partition).getD 0) ∧
      (run (Store.deliver name) t calls').terms partition =
        (run (Store.deliver name) s calls).terms partition ∧
      ((run (Store.deliver name) t calls').disk.terms partition).getD 0 =
        ((run (Store.deliver name) s calls).disk.terms partition).getD 0 := by
  obtain ⟨⟨family, hfamily, hnewest⟩, hterms⟩ := h.copies hstamped hs
  obtain ⟨⟨family', hfamily', hnewest'⟩, hterms'⟩ := h'.copies hstamped ht
  obtain rfl := hnewest.unique hone hnewest'
  refine ⟨⟨family, hfamily, hfamily', hnewest⟩, fun partition => ?_⟩
  obtain ⟨hgreatest, hdisk⟩ := hterms partition
  obtain ⟨hgreatest', hdisk'⟩ := hterms' partition
  have hsame := hgreatest'.unique hgreatest
  exact ⟨hgreatest, by rwa [hdisk], hsame, by rw [hdisk, hdisk', hsame]⟩

/-- A store with a table that nothing is in. -/
def emptyTable : Store where
  disk := { Disk.fresh with families := Disk.fresh.families.insert (ascii "t") ∅ }

theorem startsEmpty_emptyTable : emptyTable.StartsEmpty (ascii "t") where
  table := Std.ExtTreeMap.getElem?_insert_self
  terms _ := ⟨rfl, rfl⟩
  others other key value family hfamily hvalue := by
    have hempty : family = ∅ := by
      rw [emptyTable, Disk.fresh] at hfamily
      dsimp only at hfamily
      rw [Std.ExtTreeMap.getElem?_insert] at hfamily
      split_ifs at hfamily
      · exact (Option.some.inj hfamily).symm
      · rw [Std.ExtTreeMap.getElem?_insert] at hfamily
        split_ifs at hfamily
        · exact (Option.some.inj hfamily).symm
        · simp at hfamily
    rw [hempty] at hvalue
    simp at hvalue

def older : Record := ⟨ascii "k", ascii "a", ⟨2, 7⟩⟩

def newer : Record := ⟨ascii "k", ascii "b", ⟨3, 1⟩⟩

/-- Two records of one key, written one after the other and in a file before a write. -/
theorem copies_converge_pair :
    (∃ family, (run (Store.deliver (ascii "t")) emptyTable
        [.written older, .written newer]).disk.families[ascii "t"]? = some family ∧
      (run (Store.deliver (ascii "t")) emptyTable
        [.imported [newer], .written older, .written newer]).disk.families[ascii "t"]? =
          some family ∧
      HoldsNewest {older, newer} family) := by
  refine (copies_converge ?_ ?_ startsEmpty_emptyTable startsEmpty_emptyTable ⟨?_, ?_⟩ ⟨?_, ?_⟩).1
  · rintro record (rfl | rfl)
    · exact ⟨⟨by decide, by decide, by decide⟩, by decide⟩
    · exact ⟨⟨by decide, by decide, by decide⟩, by decide⟩
  · rintro a (rfl | rfl) b (rfl | rfl) - hstamp
    · rfl
    · exact absurd hstamp (by decide)
    · exact absurd hstamp (by decide)
    · rfl
  · simp [Delivery.IsFile]
  · simp [Delivery.records]
  · simp [Delivery.IsFile, Record.carried]
  · intro record
    simp only [List.mem_cons, List.not_mem_nil, or_false, exists_eq_or_imp, exists_eq_left,
      Delivery.records, Set.mem_insert_iff, Set.mem_singleton_iff]
    tauto

/-- A record of a term below zero, which its bytes put above every other. -/
def negative : Record := ⟨ascii "k", ascii "c", ⟨-1, 0⟩⟩

/-- With a negative term among them the order does matter: a copy that holds the record of it leaves
the others out, and their terms with them. -/
theorem copies_diverge :
    (run (Store.deliver (ascii "t")) emptyTable [.written negative, .written newer]).terms
        (partitionOf (ascii "k")) = 0 ∧
      (run (Store.deliver (ascii "t")) emptyTable [.written newer, .written negative]).terms
        (partitionOf (ascii "k")) = 3 ∧
      ((run (Store.deliver (ascii "t")) emptyTable
        [.written newer, .written negative]).disk.families[ascii "t"]?.bind
          (·[Store.storeKey (ascii "k")]?)) = some negative.stored := by
  decide +kernel

end AsyncDatabase
