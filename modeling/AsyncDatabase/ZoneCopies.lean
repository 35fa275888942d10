import AsyncDatabase.Elsewhere
import AsyncDatabase.Owners
import AsyncDatabase.Repository.Calls

/-!
# The copies of a zone

Nodes that fetch records from one another and give up what another node of their zone owns, each
pass under a membership of its own. A file is what its node held as it was written, so by the time a
clear down reads it that node may have given the record up in its turn. What it gave it up to ranks
higher in the rendezvous, whatever either node took for the membership, so the newest copy of the
zone is never given up (`zone_keeps_newest`).
-/

namespace AsyncDatabase

open Bytes (ascii bigEndianValue)
open Machine Throwing

/-! ### Versions as they are compared -/

/-- The bytes that decide which of two stored values is the newer as a number, the least where there
are too few. -/
def storedRank (stored : Bytes) : ℕ :=
  if stored.length < Record.versionSize then 0 else bigEndianValue
    (stored.take Record.versionSize) + 1

theorem isNewer_iff_storedRank (stored than : Bytes) :
    Record.isNewer stored than = true ↔ storedRank than < storedRank stored := by
  unfold Record.isNewer storedRank
  split_ifs with hs ht ht
  · simp
  · simp
  · simp
  · have hlength : (than.take Record.versionSize).length =
      (stored.take Record.versionSize).length := by
      rw [List.length_take, List.length_take]
      omega
    rw [decide_eq_true_iff, Bytes.lt_iff_bigEndianValue_lt hlength, Nat.succ_lt_succ_iff]

/-- A file of keys alone carries the versions. -/
theorem storedRank_take (stored : Bytes) :
    storedRank (stored.take Record.versionSize) = storedRank stored := by
  unfold storedRank
  rw [List.length_take, List.take_take, min_self]
  by_cases hs : stored.length < Record.versionSize
  · rw [if_pos hs, if_pos (by omega)]
  · rw [if_neg hs, if_neg (by omega)]

namespace Store

/-- What a store holds for a key of a table, as it spells the key. -/
def heldAt (s : Store) (name key : Bytes) : Option Bytes := s.disk.families[name]?.bind (·[key]?)

/-- A store that holds something at least as new wherever another holds something. -/
def Grows (s t : Store) : Prop :=
  ∀ name key value : Bytes, s.heldAt name key = some value →
    ∃ now, t.heldAt name key = some now ∧ storedRank value ≤ storedRank now

theorem Grows.refl (s : Store) : s.Grows s := fun _ _ value h => ⟨value, h, le_rfl⟩

/-- A change of one table that leaves something at least as new for every key. -/
theorem Grows.of_family {s t : Store} {name : Bytes} {family now : Family}
    (hfamily : s.disk.families[name]? = some family)
    (ht : ∀ other, t.disk.families[other]? = if other =
      name then some now else s.disk.families[other]?)
    (h : ∀ key value : Bytes, family[key]? = some value →
      ∃ later : Bytes, now[key]? = some later ∧ storedRank value ≤ storedRank later) :
        s.Grows t := by
  intro other key value hheld
  unfold heldAt at hheld ⊢
  rw [ht]
  split_ifs with hother
  · subst hother
    rw [hfamily] at hheld
    exact h key value hheld
  · exact ⟨value, hheld, le_rfl⟩

/-- An import only ever replaces what is held by what is newer. -/
theorem grows_importRecords (s : Store) (name : Bytes) (file : List Carried) :
    s.Grows (after (importRecords {} name file s)) := by
  by_cases hfile : file = []
  · rw [hfile]
    exact Grows.refl s
  cases hfamily : s.disk.families[name]? with
  | none =>
    rw [after_importRecords_of_none hfamily]
    exact Grows.refl s
  | some family =>
    obtain ⟨families, hrun, hfamilies⟩ := importRecords_eq hfile hfamily
    rw [hrun, after_ok]
    refine Grows.of_family hfamily hfamilies fun key value hheld => ?_
    have hmem : key ∈ family := Std.ExtTreeMap.isSome_getElem?_iff_mem.mp (by rw [hheld]; rfl)
    obtain ⟨now, hnow⟩ := Option.isSome_iff_exists.mp
      (Std.ExtTreeMap.isSome_getElem?_iff_mem.mpr
        (mem_ingest_of_mem hmem (file.filter (takes family))))
    refine ⟨now, hnow, ?_⟩
    rcases mem_of_getElem?_ingest hnow with hin | hsame
    · have htakes := (List.mem_filter.mp hin).2
      rw [takes] at htakes
      dsimp only at htakes
      rw [hheld, Option.all_some, isNewer_iff_storedRank] at htakes
      exact htakes.le
    · rw [hheld] at hsame
      exact (congrArg storedRank (Option.some.inj hsame)).le

theorem grows_writeRecord (s : Store) (name : Bytes) (record : Record) :
    s.Grows (after (writeRecord {} name record s)) := by
  rcases writeRecord_cases {} name record s with ⟨e, hrun⟩ | ⟨family, hfamily,
    ⟨-, hrun⟩ | ⟨hnewer, hrun⟩⟩
  · rw [hrun]
    exact Grows.refl s
  · rw [hrun]
    exact Grows.refl s
  · rw [hrun, after_ok]
    have hfamilies : ∀ other, (s.written name family record).disk.families[other]? =
        if other = name then
          some (family.insert (storeKey record.key) (Record.composeValue record.stamp record.value))
        else s.disk.families[other]? := by
      intro other
      rw [families_written, Std.ExtTreeMap.getElem?_insert]
      simp only [Std.LawfulEqCmp.compare_eq_iff_eq, eq_comm (b := other)]
    refine Grows.of_family hfamily hfamilies fun key value hheld => ?_
    rw [Std.ExtTreeMap.getElem?_insert]
    split_ifs with hkey
    · obtain rfl := Std.LawfulEqCmp.eq_of_compare hkey
      rw [hheld, Option.any_some, ← Bool.not_eq_true, isNewer_iff_storedRank] at hnewer
      exact ⟨_, rfl, not_lt.mp hnewer⟩
    · exact ⟨value, hheld, le_rfl⟩

/-- What a clear gives up is what its file has at a version that is no older. -/
theorem heldAt_clearRecords (s : Store) (name : Bytes) (file : List Carried)
    {other key value : Bytes} (h : s.heldAt other key = some value) :
    (after (clearRecords {} name file s)).heldAt other key = some value ∨
      other = name ∧ ∃ carried ∈ file, carried.1 = key ∧
      storedRank value ≤ storedRank carried.2 := by
  by_cases hother : other = name
  · subst hother
    obtain ⟨family, hfamily, hheld⟩ := Option.bind_eq_some_iff.mp h
    by_cases hfile : file = []
    · rw [hfile]
      exact .inl h
    unfold heldAt
    rw [clearRecords_eq hfile hfamily, Option.bind_some, getElem?_eraseAll]
    split_ifs with hmem
    · obtain ⟨carried, hcarried, hkey⟩ := List.mem_map.mp hmem
      obtain ⟨hin, hclears⟩ := List.mem_filter.mp hcarried
      rw [clears, hkey, hheld, Option.any_some, Bool.not_eq_true', ← Bool.not_eq_true,
        isNewer_iff_storedRank] at hclears
      exact .inr ⟨rfl, carried, hin, hkey, not_lt.mp hclears⟩
    · exact .inl hheld
  · left
    have hkeep : Keeps (fun t : Store => t.disk.families[other]? = s.disk.families[other]?)
        (clearRecords {} name file) := by
      refine keeps_clearRecords {} fun _ t _ _ _ _ ht => ?_
      change (t.disk.families.insert name _)[other]? = _
      rw [Std.ExtTreeMap.getElem?_insert, if_neg (by simpa using Ne.symm hother)]
      exact ht
    have hsame := hkeep s rfl
    unfold heldAt at h ⊢
    rwa [hsame]

end Store

/-! ### Nodes, files and passes -/

/-- A file of records on its way: whose it is, of which table and which partitions, and what that
node then held. -/
structure SentFile where
  node : Bytes
  table : Bytes
  partitions : PartitionSet
  /-- Whether the values were asked for beside the keys. -/
  values : Bool
  records : List Store.Carried

/-- The nodes of a cluster, by name, with the files that were sent. -/
structure Copying where
  store : Bytes → Store
  sent : List SentFile := []

inductive CopyingEvent where
  | write (node table : Bytes) (record : Record)
  /-- A node answers with a file: some of the keys it holds in the partitions it is asked for. -/
  | exported (node table : Bytes) (partitions : PartitionSet) (values : Bool) (keys : List Bytes)
  /-- A node takes in a file it fetched, whenever it arrives and however often. -/
  | fetch (node : Bytes) (number : ℕ)
  /-- A node reads a file for what it may give up, in a pass under a membership. -/
  | clear (node : Bytes) (number : ℕ) (members : List Member)

/-- A file of the keys that a node holds, each in one of the partitions asked for. -/
def Store.exportFile (s : Store) (table : Bytes) (partitions : PartitionSet) (values : Bool)
    (keys : List Bytes) : List Store.Carried :=
  keys.filterMap fun key =>
    if ∃ partition ∈ partitions, Store.partitionHeld key = partition then
      (s.heldAt table key).map fun stored =>
        (key, if values then stored else stored.take Record.versionSize)
    else none

variable (zone : Bytes → Bytes)

/-- A membership a node may be acting on: it lists nodes by their names, in the zones they are in,
and the node itself among them. -/
def Lists (members : List Member) (node : Bytes) : Prop :=
  (∀ listed ∈ members, listed.node ≠ [] ∧ listed.zone = zone listed.node) ∧
    ⟨node, zone node⟩ ∈ members

instance (members : List Member) (node : Bytes) : Decidable (Lists zone members node) :=
  inferInstanceAs (Decidable (_ ∧ _))

/-- A clear down asks a node for the keys of the partitions that it does not hold itself, and of
which that node has the first copy. -/
def AsksFor (members : List Member) (node : Bytes) (file : SentFile) : Prop :=
  file.values = false ∧ ∀ partition ∈ file.partitions, partition ∉ holdingsOf node members ∧
    (copiesOf node (zone node) members partition).nodes.head? = some file.node

instance (members : List Member) (node : Bytes) (file : SentFile) :
    Decidable (AsksFor zone members node file) :=
  inferInstanceAs (Decidable (_ ∧ _))

namespace Copying

def setStore (s : Copying) (node : Bytes) (store : Store) : Copying :=
  { s with store := Function.update s.store node store }

@[simp] theorem store_setStore_self (s : Copying) (node : Bytes) (store : Store) :
    (s.setStore node store).store node = store := Function.update_self _ _ _

theorem store_setStore_of_ne (s : Copying) {node other : Bytes} (h : other ≠ node) (store : Store) :
    (s.setStore node store).store other = s.store other := Function.update_of_ne h _ _

/-- A file that no pass would have asked for is not read. -/
def step (s : Copying) : CopyingEvent → Copying
  | .write node table record =>
    s.setStore node (after (Store.writeRecord {} table record (s.store node)))
  | .exported node table partitions values keys =>
    { s with sent := s.sent ++
      [⟨node, table, partitions, values, (s.store node).exportFile table partitions values keys⟩] }
  | .fetch node number =>
    match s.sent[number]? with
    | none => s
    | some file =>
      if file.values then
        s.setStore node (after (Store.importRecords {} file.table file.records (s.store node)))
      else s
  | .clear node number members =>
    match s.sent[number]? with
    | none => s
    | some file =>
      if Lists zone members node ∧ AsksFor zone members node file then
        s.setStore node (after (Store.clearRecords {} file.table file.records (s.store node)))
      else s

/-- Wherever something was held something at least as new is held in the same zone, by a node that
ranks no lower. -/
def Keeps (s t : Copying) : Prop :=
  ∀ node table key value, (s.store node).heldAt table key = some value → ∃ holder held,
    zone holder = zone node ∧
    (∀ partition : Partition, Store.partitionHeld key = partition →
      rank (partitionName partition) node ≤ rank (partitionName partition) holder) ∧
    (t.store holder).heldAt table key = some held ∧ storedRank value ≤ storedRank held

/-- What a file has is kept in the zone of the node that sent it, by that node or by one that ranks
higher. -/
def Covered (s : Copying) : Prop :=
  ∀ file ∈ s.sent, ∀ carried ∈ file.records, ∃ partition ∈ file.partitions,
    Store.partitionHeld carried.1 = partition ∧ ∃ holder held, zone holder = zone file.node ∧
      rank (partitionName partition) file.node ≤ rank (partitionName partition) holder ∧
      (s.store holder).heldAt file.table carried.1 = some held ∧
        storedRank carried.2 ≤ storedRank held

variable {zone}

theorem Keeps.refl (s : Copying) : s.Keeps zone s :=
  fun node _ _ value h => ⟨node, value, rfl, fun _ _ => le_rfl, h, le_rfl⟩

theorem Keeps.trans {s t u : Copying} (h : s.Keeps zone t) (h' : t.Keeps zone u) :
    s.Keeps zone u := by
  intro node table key value hheld
  obtain ⟨between, held, hzone, hrank, hheld, hle⟩ := h node table key value hheld
  obtain ⟨holder, now, hzone', hrank', hnow, hle'⟩ := h' between table key held hheld
  exact ⟨holder, now, hzone'.trans hzone,
    fun partition hpartition =>
      (hrank partition hpartition).trans (hrank' partition hpartition), hnow,
    hle.trans hle'⟩

/-- What only makes a store hold newer things keeps what was held. -/
theorem Keeps.of_grows {s : Copying} {node : Bytes} {store : Store}
    (h : (s.store node).Grows store) : s.Keeps zone (s.setStore node store) := by
  intro other table key value hheld
  by_cases hother : other = node
  · subst hother
    obtain ⟨now, hnow, hle⟩ := h table key value hheld
    refine ⟨other, now, rfl, fun _ _ => le_rfl, ?_, hle⟩
    rw [store_setStore_self]
    exact hnow
  · refine ⟨other, value, rfl, fun _ _ => le_rfl, ?_, le_rfl⟩
    rw [s.store_setStore_of_ne hother]
    exact hheld

/-- **Who is asked outranks who asks**, whatever the membership is that the pass is under. -/
theorem outranked {members : List Member} {node : Bytes} {file : SentFile}
    (hlists : Lists zone members node) (hasks : AsksFor zone members node file)
    {partition : Partition} (hpartition : partition ∈ file.partitions) :
    zone file.node = zone node ∧
      rank (partitionName partition) node < rank (partitionName partition) file.node := by
  obtain ⟨hheld, hfront⟩ := hasks.2 partition hpartition
  have hgives : GivesUp node (zone node) members partition := ⟨hheld, _, hlists.2, rfl⟩
  have howner := (asksOwner_iff hfront).mpr hgives
  have hnames : ∀ listed ∈ members, listed.node ≠ [] := fun listed hlisted =>
    (hlists.1 listed hlisted).1
  have hhere : node ∈ nodesOfZone members (zone node) := mem_nodesOfZone.mpr hlists.2
  have hle := (newest_ownerOf (partitionName partition) (List.ne_nil_of_mem hhere)
    (names_nodesOfZone hnames)).2 node hhere
  rw [howner.owns] at hle
  exact ⟨(hlists.1 _ howner.inZone).2.symm,
    lt_of_le_of_ne hle ((rank_injective _).ne howner.other.symm)⟩

/-- What a clear down gives up is held by the zone at a higher rank. -/
theorem Covered.keeps_clear {s : Copying} (h : s.Covered zone)
    {members : List Member} {node : Bytes}
    {file : SentFile} (hfile : file ∈ s.sent) (hlists : Lists zone members node)
    (hasks : AsksFor zone members node file) :
    s.Keeps zone
      (s.setStore node (after (Store.clearRecords {} file.table file.records (s.store node)))) := by
  intro other table key value hheld
  by_cases hother : other = node
  · subst hother
    rcases Store.heldAt_clearRecords _ file.table file.records hheld with
      hkept | ⟨rfl, carried, hcarried, rfl, hle⟩
    · refine ⟨other, value, rfl, fun _ _ => le_rfl, ?_, le_rfl⟩
      rw [store_setStore_self]
      exact hkept
    · obtain ⟨partition, hpartition, hof, holder, held, hzone, hrank, hholds, hnewer⟩ :=
        h file hfile carried hcarried
      obtain ⟨hsame, hlt⟩ := outranked hlists hasks hpartition
      have hhigher := hlt.trans_le hrank
      have hne : holder ≠ other := fun heq => absurd (heq ▸ hhigher) (lt_irrefl _)
      refine ⟨holder, held, hzone.trans hsame, fun named hnamed => ?_, ?_, hle.trans hnewer⟩
      · rw [Fin.ext (hnamed.symm.trans hof)]
        exact hhigher.le
      · rw [s.store_setStore_of_ne hne]
        exact hholds
  · refine ⟨other, value, rfl, fun _ _ => le_rfl, ?_, le_rfl⟩
    rw [s.store_setStore_of_ne hother]
    exact hheld

/-- What files have is covered still where what was held is kept. -/
theorem Covered.of_keeps {s t : Copying} (h : s.Covered zone) (hkeeps : s.Keeps zone t)
    (hsent : t.sent = s.sent) : t.Covered zone := by
  intro file hfile carried hcarried
  rw [hsent] at hfile
  obtain ⟨partition, hpartition, hof, holder, held, hzone, hrank, hholds, hle⟩ :=
    h file hfile carried hcarried
  obtain ⟨now, later, hzone', hrank', hlater, hle'⟩ := hkeeps holder _ _ held hholds
  exact ⟨partition, hpartition, hof, now, later, hzone'.trans hzone,
    hrank.trans (hrank' partition hof), hlater, hle.trans hle'⟩

/-- A file that is written has what its node holds. -/
theorem Covered.export {s : Copying} (h : s.Covered zone) (node table : Bytes)
    (partitions : PartitionSet) (values : Bool) (keys : List Bytes) :
    (s.step zone (.exported node table partitions values keys)).Covered zone := by
  intro file hfile carried hcarried
  rcases List.mem_append.mp hfile with hold | hnew
  · exact h file hold carried hcarried
  · obtain rfl := List.mem_singleton.mp hnew
    obtain ⟨key, -, hkey⟩ := List.mem_filterMap.mp hcarried
    by_cases hshare : ∃ partition ∈ partitions, Store.partitionHeld key = partition
    swap
    · rw [if_neg hshare] at hkey
      cases hkey
    rw [if_pos hshare] at hkey
    obtain ⟨partition, hmem, hof⟩ := hshare
    obtain ⟨stored, hstored, rfl⟩ := Option.map_eq_some_iff.mp hkey
    refine ⟨partition, hmem, hof, node, stored, rfl, le_rfl, hstored, ?_⟩
    cases values with
    | true => exact le_rfl
    | false => exact (storedRank_take stored).le

/-- **A step gives up nothing that its zone does not keep**, and no file on its way is left
uncovered. -/
theorem Covered.step {s : Copying} (h : s.Covered zone) (e : CopyingEvent) :
    (s.step zone e).Covered zone ∧ s.Keeps zone (s.step zone e) := by
  cases e with
  | write node table record =>
    have hkeeps :
      s.Keeps zone (s.setStore node (after (Store.writeRecord {} table record (s.store node)))) :=
      Keeps.of_grows (Store.grows_writeRecord _ _ _)
    exact ⟨h.of_keeps hkeeps rfl, hkeeps⟩
  | exported node table partitions values keys =>
    exact ⟨h.export node table partitions values keys, Keeps.refl s⟩
  | fetch node number =>
    rw [Copying.step]
    cases hfile : s.sent[number]? with
    | none => exact ⟨h, Keeps.refl s⟩
    | some file =>
      dsimp only
      split_ifs with hvalues
      · have hkeeps : s.Keeps zone
            (s.setStore node
              (after (Store.importRecords {} file.table file.records (s.store node)))) :=
          Keeps.of_grows (Store.grows_importRecords _ _ _)
        exact ⟨h.of_keeps hkeeps rfl, hkeeps⟩
      · exact ⟨h, Keeps.refl s⟩
  | clear node number members =>
    rw [Copying.step]
    cases hfile : s.sent[number]? with
    | none => exact ⟨h, Keeps.refl s⟩
    | some file =>
      dsimp only
      split_ifs with hasks
      · have hkeeps := h.keeps_clear (List.mem_of_getElem? hfile) hasks.1 hasks.2
        exact ⟨h.of_keeps hkeeps rfl, hkeeps⟩
      · exact ⟨h, Keeps.refl s⟩

theorem Covered.run {s : Copying} (h : s.Covered zone) (es : List CopyingEvent) :
    (run (Copying.step zone) s es).Covered zone ∧ s.Keeps zone (run (Copying.step zone) s es) := by
  induction es generalizing s with
  | nil => exact ⟨h, Keeps.refl s⟩
  | cons e es ih =>
    obtain ⟨hcovered, hkeeps⟩ := h.step e
    obtain ⟨hlast, hrest⟩ := ih hcovered
    exact ⟨hlast, hkeeps.trans hrest⟩

/-- **The newest copy a zone has of a key is never lost.** Whatever a node of the zone holds at some
point of a run, at every later point some node of the zone holds something that is no older. -/
theorem zone_keeps_newest (zone : Bytes → Bytes) (start : Bytes → Store)
    (before later : List CopyingEvent) (node table key value : Bytes)
    (hheld : ((run (step zone) { store := start } before).store node).heldAt
      table key = some value) :
    ∃ holder held, zone holder = zone node ∧
      ((run (step zone) { store := start } (before ++ later)).store holder).heldAt
        table key = some held ∧
      Record.isNewer value held = false := by
  have hstart : Covered zone { store := start } := fun file hfile => absurd hfile List.not_mem_nil
  obtain ⟨holder, held, hzone, -, hholds, hle⟩ :=
    ((hstart.run before).1.run later).2 node table key value hheld
  refine ⟨holder, held, hzone, by rwa [run_append], ?_⟩
  rw [← Bool.not_eq_true, isNewer_iff_storedRank]
  exact not_lt.mpr hle

/-- Two nodes of a zone that were each handed a write, one of which owns its partition. -/
def bothWritten : List CopyingEvent :=
  [.write (ascii "a") (ascii "t") ⟨ascii "k", ascii "v", ⟨3, 1⟩⟩,
    .write (ascii "b") (ascii "t") ⟨ascii "k", ascii "v", ⟨3, 1⟩⟩]

/-- The owner says what it holds, and the other gives it up. -/
def handedOver : List CopyingEvent :=
  [.exported (ascii "b") (ascii "t") {partitionOf (ascii "k")} false [Store.storeKey (ascii "k")],
    .clear (ascii "a") 0 [⟨ascii "a", ascii "z"⟩, ⟨ascii "b", ascii "z"⟩]]

/-- A table that nothing is in. -/
def bareTable : Store where
  disk := { Disk.fresh with families := Disk.fresh.families.insert (ascii "t") ∅ }

theorem zone_keeps_newest_handedOver :
    ((run (step fun _ => ascii "z") { store := fun _ => bareTable }
      (bothWritten ++ handedOver)).store
        (ascii "a")).heldAt (ascii "t") (Store.storeKey (ascii "k")) = none ∧
      ∃ holder held, ((run (step fun _ => ascii "z") { store := fun _ => bareTable }
        (bothWritten ++ handedOver)).store holder).heldAt (ascii "t") (Store.storeKey (ascii "k")) =
          some held ∧
        Record.isNewer (Record.composeValue ⟨3, 1⟩ (ascii "v")) held = false := by
  have hheld : ((run (step fun _ => ascii "z") { store := fun _ => bareTable } bothWritten).store
      (ascii "a")).heldAt (ascii "t") (Store.storeKey (ascii "k")) =
        some (Record.composeValue ⟨3, 1⟩ (ascii "v")) := by
    decide +kernel
  obtain ⟨holder, held, -, hholds, hnewer⟩ :=
    zone_keeps_newest (fun _ => ascii "z") (fun _ => bareTable)
    bothWritten handedOver (ascii "a") (ascii "t") _ _ hheld
  exact ⟨by decide +kernel, holder, held, hholds, hnewer⟩

end Copying

end AsyncDatabase
