import AsyncDatabase.Repository.Effect

/-!
# Reads that fail

A reading of the database can fail for another reason than that nothing is there, and `read_tables`,
`load_terms`, `reserve_counts` and `import_records` ask only whether it went through. Each is
written here with the readings of it that fail (`FailedReads`); with none that does it is the one of
`AsyncDatabase.Repository`. `failed_reads_iff` says when such a failure is never taken for an
absence: where what could not be read was not there, or would have been decided on alike.
-/

namespace AsyncDatabase

open Bytes (ascii)
open Throwing

/-! ### The readings -/

/-- The readings of the database that fail, and not because there is nothing to read. -/
structure FailedReads where
  schema : Bool := false
  terms : Partition → Bool := fun _ => false
  count : Bool := false
  /-- The keys of a file that the first walk of an import fails to read. -/
  first : Bytes → Bool := fun _ => false
  /-- The keys of a file that the second walk fails to read. -/
  second : Bytes → Bool := fun _ => false

namespace FailedReads

variable (r : FailedReads) (J : JsonCodec) (db : Database)

/-- `read_tables`: the tables stay none where the record could not be read. -/
def readTables : Action Unit := do
  modify fun s => { s with tables := if r.schema then ∅ else Store.readSchemaRecord J s.disk }
  let s ← get
  s.orphans.forM (Store.dropFamily db)
  s.tables.names.forM (Store.openFamily db)

def loadTerms (s : Store) : Store :=
  { s with terms := fun partition =>
      if r.terms partition then 0 else (s.disk.terms partition).getD 0 }

def openStore (disk : Disk) : EStateM.Result StorageError Store Unit :=
  (do r.readTables J db; modify r.loadTerms) { disk }

def reserveCounts : Action Unit := do
  let s ← get
  let reserved := if r.count then 0 else s.disk.count.getD 0
  let upTo := (reserved + Store.countsPerReservation) % 2 ^ 64
  check db.putCount (ascii "Reserving a block of write counts")
  set { s with
    disk := { s.disk with count := some upTo }, counts := reserved, countsReserved := upTo }

/-- A walk of a file takes a record it could not read the key of as it takes one that is not
held. -/
def takes (fails : Bytes → Bool) (family : Family) (carried : Store.Carried) : Bool :=
  fails carried.1 || Store.takes family carried

def importRecords (name : Bytes) (file : List Store.Carried) : Action ℕ := do
  if file = [] then pure 0
  else
    let what := ascii "Importing a file into \"" ++ name ++ ascii "\""
    let family ← Store.tableHandle name
    Store.readFile db what
    let records := (file.filter (takes r.first family)).length
    Store.raiseTerms db (Store.carriedTerms file) what
    if records = 0 then pure 0
    else if file.all (fun carried => r.first carried.1 || carried.1 ∉ family) then
      check db.write what
      modify fun s => s.setFamily name (Store.ingest family file)
      pure records
    else
      let family ← Store.tableHandle name
      let kept := file.filter (takes r.second family)
      if kept = [] then pure 0
      else
        check db.write what
        modify fun s => s.setFamily name (Store.ingest family kept)
        pure kept.length

/-! ### Where no reading fails -/

theorem openStore_none (disk : Disk) :
    ({} : FailedReads).openStore J db disk = Store.openStore J db disk := rfl

theorem reserveCounts_none : ({} : FailedReads).reserveCounts db = Store.reserveCounts db := rfl

theorem importRecords_none (name : Bytes) (file : List Store.Carried) :
    ({} : FailedReads).importRecords db name file = Store.importRecords db name file := by
  unfold importRecords Store.importRecords takes
  simp only [Bool.false_or]

end FailedReads

/-! ### What is asked of them -/

/-- It threw and left the disk as it was. -/
def LeftAlone (before : Disk) {α : Type} (result : EStateM.Result StorageError Store α) : Prop :=
  ∃ e s, result = .error e s ∧ s.disk = before

section Property

variable (r : FailedReads) (J : JsonCodec) (db : Database)

/-- The store was opened as it would have been with its records read. -/
structure OpenedAlike (disk : Disk) : Prop where
  same : r.openStore J db disk = Store.openStore J db disk
  /-- No family of a table that `SCHEMA` names live is dropped. -/
  families : ∀ name family, (Store.readSchemaRecord J disk).has name = true →
    disk.families[name]? = some family →
    (after (r.openStore J db disk)).disk.families[name]? = some family
  /-- No term restored is below the one on disk. -/
  terms : ∀ s, r.openStore J db disk = .ok () s →
    ∀ partition, (disk.terms partition).getD 0 ≤ s.terms partition

structure ReservedAlike (s : Store) : Prop where
  same : r.reserveCounts db s = Store.reserveCounts db s
  /-- What is handed out next is past all that was handed out, which is at most the record
  `COUNT`. -/
  counts : ∀ t, r.reserveCounts db s = .ok () t → s.disk.count.getD 0 ≤ t.counts

structure ImportedAlike (s : Store) (name : Bytes) (file : List Store.Carried) : Prop where
  same : r.importRecords db name file s = Store.importRecords db name file s
  /-- A record held is there still, or another with a newer version is. -/
  records : ∀ (family : Family) (key held : Bytes), s.disk.families[name]? = some family →
    family[key]? = some held →
    ∃ (now : Family) (value : Bytes),
      (after (r.importRecords db name file s)).disk.families[name]? = some now ∧
      now[key]? = some value ∧ (value = held ∨ Record.isNewer value held = true)

end Property

/-! ### When they do it -/

section Harmless

variable (r : FailedReads) (J : JsonCodec) (db : Database)

/-- A call that matches the families to the tables is refused. -/
def Refused (s : Store) : Prop :=
  (∃ name ∈ s.orphans, Store.dropStatus db name ≠ .ok) ∨
    ∃ name ∈ s.tables.names, name ∉ s.disk.families ∧ db.createFamily name ≠ .ok

/-- The first family there is, but for the default one, is refused to be dropped. -/
def FirstRefused (disk : Disk) : Prop :=
  ∃ name rest, ({ disk } : Store).orphans = name :: rest ∧ Store.dropStatus db name ≠ .ok

/-- A schema that could not be read was empty, or the first drop is refused; and a term that could
not be read was none, or opening the store throws anyway. -/
structure OpensHarmless (disk : Disk) : Prop where
  schema : r.schema = true → Store.readSchemaRecord J disk ≠ ∅ → FirstRefused db disk
  terms : (r.schema = true → Store.readSchemaRecord J disk = ∅) →
    Refused db { disk, tables := Store.readSchemaRecord J disk } ∨
      ∀ partition, r.terms partition = true → (disk.terms partition).getD 0 = 0

/-- A count that could not be read was none, or the block is not written down either. -/
def ReserveHarmless (s : Store) : Prop :=
  r.count = true → s.disk.count.getD 0 = 0 ∨ db.putCount ≠ .ok

/-- The keys that the walk which decides what is taken fails to read: the first one where it found
nothing held, and otherwise the second, which is made where the first found something to take. -/
def FailedReads.deciding (family : Family) (file : List Store.Carried) : Bytes → Bool :=
  if file.all fun carried => r.first carried.1 || carried.1 ∉ family then r.first
  else if file.any (FailedReads.takes r.first family) then r.second
  else fun _ => false

/-- The import gets to its records: the file is read and the terms it carries are raised. -/
structure ReachesRecords (s : Store) (file : List Store.Carried) : Prop where
  some : file ≠ []
  scratch : db.writeScratch = true
  read : db.readFile = .ok
  raised : (∀ partition, Store.carriedTerms file partition ≤ s.terms partition) ∨
    db.writeTerms = .ok

/-- Every record whose key could not be read where it was decided on is one that is taken, or the
file is not ingested, and either it was not to be with that key read or nothing was changed
before. -/
def ImportHarmless (s : Store) (name : Bytes) (file : List Store.Carried) : Prop :=
  ∀ family : Family, s.disk.families[name]? = some family → ReachesRecords db s file →
    (∀ carried ∈ file, r.deciding family file carried.1 = true →
      Store.takes family carried = true) ∨
      db.write ≠ .ok ∧ ((∃ carried ∈ file, Store.takes family carried = true) ∨
        ∀ partition, s.terms partition < Store.carriedTerms file partition →
          s.disk.terms partition = some (Store.carriedTerms file partition))

end Harmless

/-! ### Opening -/

section Opening

variable {r : FailedReads} {J : JsonCodec} {db : Database} {disk : Disk}

/-- The families are made to match the tables: all that is asked is done, or it throws on the
way. -/
theorem matchFamilies_cases (db : Database) (s : Store) :
    let run := (s.orphans.forM (Store.dropFamily db) >>= fun _ =>
      s.tables.names.forM (Store.openFamily db)) s
    (¬Refused db s ∧ ∃ families, run = .ok () (s.withFamilies families)) ∨
      (Refused db s ∧ ∃ e families, run = .error e (s.withFamilies families)) := by
  intro run
  have hnames : ∀ (l : List Bytes) (live : Bool), l.Nodup →
      ((l.map fun name => Schema.Change.mk name live).map Schema.Change.name).Nodup := by
    intro l live hl
    simpa [Function.comp_def] using hl
  have horphans : s.orphans.Nodup := (Maps.nodup_keys_toList s.disk.families).filter _
  have hrun : run = (s.orphans.forM (Store.dropFamily db) >>= fun _ =>
      s.tables.names.forM (Store.openFamily db)) s := rfl
  rw [run_bind, Store.forM_dropFamily_eq] at hrun
  rcases Store.forM_alterFamily_cases db _ (hnames _ false horphans) s with
    ⟨hall, hdrop⟩ | ⟨⟨c, hc, hno⟩, e, families, hdrop⟩
  · obtain ⟨dropped, hdropped⟩ := Store.foldl_altered_eq
      (s.orphans.map fun name => Schema.Change.mk name false) s
    rw [hdrop, hdropped] at hrun
    dsimp only at hrun
    rw [Store.forM_openFamily_eq] at hrun
    -- a table's family is none of those that were dropped
    have hkept : ∀ name ∈ s.tables.names,
        (name ∈ (s.withFamilies dropped).disk.families ↔ name ∈ s.disk.families) := by
      intro name hname
      have hno : name ∉ s.orphans := fun h =>
        (Store.mem_orphans.mp h).2.2 (Schema.mem_names_iff.mp hname)
      have hget := Store.getElem?_foldl_altered _ (hnames _ false horphans) s name
      rw [Store.find?_map_change, if_neg hno, hdropped] at hget
      rw [← Std.ExtTreeMap.isSome_getElem?_iff_mem, hget, Std.ExtTreeMap.isSome_getElem?_iff_mem]
    have hdrops : ¬∃ name ∈ s.orphans, Store.dropStatus db name ≠ .ok := by
      rintro ⟨name, hname, hrefused⟩
      rcases hall _ (List.mem_map_of_mem hname) with hnone | hok
      · exact hnone (Store.mem_orphans.mp hname).1
      · exact hrefused hok
    rcases Store.forM_alterFamily_cases db _ (hnames _ true s.tables.nodup_names)
        (s.withFamilies dropped) with ⟨hall', hopen⟩ | ⟨⟨c, hc, hno⟩, e, families, hopen⟩
    · obtain ⟨opened, hopened⟩ := Store.foldl_altered_eq
        (s.tables.names.map fun name => Schema.Change.mk name true) (s.withFamilies dropped)
      refine Or.inl ⟨?_, opened, hrun.trans (hopen.trans ?_)⟩
      · rintro (h | ⟨name, hname, hnone, hrefused⟩)
        · exact hdrops h
        · rcases hall' _ (List.mem_map_of_mem hname) with hmem | hok
          · exact hnone ((hkept name hname).mp hmem)
          · exact hrefused hok
      · rw [hopened]
        rfl
    · obtain ⟨name, hname, rfl⟩ := List.mem_map.mp hc
      refine Or.inr ⟨Or.inr ⟨name, hname, ?_, fun hok => hno (Or.inr hok)⟩, e, families, ?_⟩
      · exact fun hmem => hno (Or.inl ((hkept name hname).mpr hmem))
      · exact hrun.trans hopen
  · obtain ⟨name, hname, rfl⟩ := List.mem_map.mp hc
    refine Or.inr ⟨Or.inl ⟨name, hname, fun hok => hno (Or.inr hok)⟩, e, families, ?_⟩
    rw [hrun, hdrop]

/-- The schema read of the record, or none. -/
theorem readTables_eq (r : FailedReads) (J : JsonCodec) (db : Database) (disk : Disk) :
    let read : Store :=
      { disk, tables := if r.schema then ∅ else Store.readSchemaRecord J disk }
    r.readTables J db { disk } = (read.orphans.forM (Store.dropFamily db) >>= fun _ =>
      read.tables.names.forM (Store.openFamily db)) read := rfl

/-- A family that the tables name is left as it is. -/
theorem keeps_matchFamilies (db : Database) (s : Store) {name : Bytes} {family : Family}
    (hname : s.tables.has name = true) :
    Keeps (fun t : Store => t.disk.families[name]? = some family)
      (s.orphans.forM (Store.dropFamily db) >>= fun _ =>
        s.tables.names.forM (Store.openFamily db)) := by
  refine Keeps.bind (Keeps.forM fun orphan horphan => ?_) fun _ => Keeps.forM fun other _ => ?_
  · have hne : name ≠ orphan := fun heq =>
      (Store.mem_orphans.mp horphan).2.2 (heq ▸ hname)
    intro t ht
    rcases Store.dropFamily_cases db orphan t with ⟨-, hrun⟩ | ⟨-, e, hrun⟩
    · rw [hrun, after_ok, Store.getElem?_withoutFamily, if_neg hne]
      exact ht
    · rwa [hrun]
  · intro t ht
    rcases Store.openFamily_cases db other t with ⟨-, hrun⟩ | ⟨-, e, hrun⟩
    · rw [hrun, after_ok, Store.getElem?_withFamily]
      split_ifs with heq
      · rw [← heq, ht]
        rfl
      · exact ht
    · rwa [hrun]

theorem openStore_run (r : FailedReads) (J : JsonCodec) (db : Database) (disk : Disk) :
    r.openStore J db disk = match r.readTables J db { disk } with
      | .ok _ t => .ok () (r.loadTerms t)
      | .error e t => .error e t := by
  rw [FailedReads.openStore, run_bind]
  cases r.readTables J db { disk } <;> rfl

/-- What a store is opened with, whatever was asked of its families. -/
theorem openStore_cases (r : FailedReads) (J : JsonCodec) (db : Database) (disk : Disk) :
    let read : Store :=
      { disk, tables := if r.schema then ∅ else Store.readSchemaRecord J disk }
    (¬Refused db read ∧ ∃ families,
        r.readTables J db { disk } = .ok () (read.withFamilies families) ∧
          r.openStore J db disk = .ok () (r.loadTerms (read.withFamilies families))) ∨
      (Refused db read ∧ ∃ e families,
        r.readTables J db { disk } = .error e (read.withFamilies families) ∧
          r.openStore J db disk = .error e (read.withFamilies families)) := by
  intro read
  have hopen := openStore_run r J db disk
  rcases matchFamilies_cases db read with ⟨hok, families, hrun⟩ | ⟨hrefused, e, families, hrun⟩
  · have hread := (readTables_eq r J db disk).trans hrun
    exact Or.inl ⟨hok, families, hread, by rw [hopen, hread]⟩
  · have hread := (readTables_eq r J db disk).trans hrun
    exact Or.inr ⟨hrefused, e, families, hread, by rw [hopen, hread]⟩

/-- A store that is opened as it would have been has its families and its terms. -/
theorem openedAlike_of_same (h : r.openStore J db disk = Store.openStore J db disk) :
    OpenedAlike r J db disk where
  same := h
  families name family hname hfamily := by
    rw [h, ← FailedReads.openStore_none]
    have hkept : (after (({} : FailedReads).readTables J db { disk })).disk.families[name]? =
        some family := by
      rw [readTables_eq]
      exact keeps_matchFamilies db _ hname _ hfamily
    rcases openStore_cases {} J db disk with ⟨-, families, hread, hopen⟩ | ⟨-, e,
      families, hread, hopen⟩
    · rw [hread] at hkept
      rw [hopen]
      exact hkept
    · rw [hread] at hkept
      rw [hopen]
      exact hkept
  terms s hs partition := by
    rw [h, ← FailedReads.openStore_none] at hs
    rcases openStore_cases {} J db disk with ⟨-, families, -, hopen⟩ | ⟨-, e, families, -, hopen⟩
    · rw [hopen] at hs
      cases hs
      exact le_rfl
    · rw [hopen] at hs
      cases hs

/-- A schema that could not be read leaves the tables none. -/
theorem tables_openStore (r : FailedReads) (J : JsonCodec) (db : Database) (disk : Disk) :
    (after (r.openStore J db disk)).tables =
      if r.schema then ∅ else Store.readSchemaRecord J disk := by
  rcases openStore_cases r J db disk with ⟨-, families, -, hopen⟩ | ⟨-, e, families, -, hopen⟩
  · rw [hopen]
    rfl
  · rw [hopen]
    rfl

/-- With no schema every family but the default one is dropped, and nothing is left alone but by the
first drop that is refused. -/
theorem leftAlone_iff_firstRefused (hschema : r.schema = true) :
    LeftAlone disk (r.openStore J db disk) ↔ FirstRefused db disk := by
  have hread : r.readTables J db { disk } =
      (({ disk } : Store).orphans.forM (Store.dropFamily db) >>= fun _ =>
        (∅ : Schema).names.forM (Store.openFamily db)) { disk } := by
    rw [readTables_eq, if_pos hschema]
  have hopen := openStore_run r J db disk
  cases horphans : ({ disk } : Store).orphans with
  | nil =>
    -- there is nothing to drop, and nothing that could refuse
    have hrun : r.readTables J db { disk } = .ok () { disk } := by
      rw [hread, horphans]
      rfl
    rw [hrun] at hopen
    constructor
    · rintro ⟨e, s, hfail, -⟩
      rw [hopen] at hfail
      cases hfail
    · rintro ⟨name, rest, hcons, -⟩
      rw [horphans] at hcons
      cases hcons
  | cons name rest =>
    have hname : name ∈ disk.families :=
      (Store.mem_orphans.mp (horphans ▸ List.mem_cons_self : name ∈ ({ disk } : Store).orphans)).1
    rw [horphans, run_bind, run_forM_cons] at hread
    rcases Store.dropFamily_cases db name { disk } with ⟨hdrops, hdrop⟩ | ⟨hrefused, e, hdrop⟩
    · -- once the first family is gone no drop and no refusal brings it back
      have hgone : (after (r.openStore J db disk)).disk.families[name]? = none := by
        have hkeeps : Keeps (fun t : Store => t.disk.families[name]? = none)
            (rest.forM (Store.dropFamily db) >>= fun _ =>
              (∅ : Schema).names.forM (Store.openFamily db)) := by
          refine Keeps.bind (Keeps.forM fun other _ t ht => ?_) fun _ => keeps_pure _
          rcases Store.dropFamily_cases db other t with ⟨-, hrun⟩ | ⟨-, e, hrun⟩
          · rw [hrun, after_ok, Store.getElem?_withoutFamily, ht, ite_self]
          · rwa [hrun]
        have hfirst : (({ disk } : Store).withoutFamily name).disk.families[name]? = none := by
          rw [Store.getElem?_withoutFamily, if_pos rfl]
        have hrest := hkeeps _ hfirst
        rw [hdrop] at hread
        rw [run_bind, ← hread] at hrest
        rw [hopen]
        cases hrun : r.readTables J db { disk } with
        | ok a t =>
          rw [hrun] at hrest
          exact hrest
        | error e t =>
          rw [hrun] at hrest
          exact hrest
      constructor
      · rintro ⟨e, s, hfail, hsame⟩
        rw [hfail, after_error, hsame] at hgone
        exact absurd hname (by rw [← Std.ExtTreeMap.isSome_getElem?_iff_mem, hgone]; simp)
      · rintro ⟨other, rest', hcons, hrefused⟩
        rw [horphans] at hcons
        obtain ⟨rfl, -⟩ := List.cons_eq_cons.mp hcons
        rcases hdrops with hnone | hok
        · exact absurd hname hnone
        · exact absurd hok hrefused
    · -- the first drop is refused, and nothing has changed
      rw [hdrop] at hread
      rw [hread] at hopen
      refine ⟨fun _ => ⟨name, rest, horphans, ?_⟩, fun _ => ⟨e, _, hopen, rfl⟩⟩
      exact fun hok => hrefused (Or.inr hok)

theorem opens_iff (r : FailedReads) (J : JsonCodec) (db : Database) (disk : Disk) :
    LeftAlone disk (r.openStore J db disk) ∨ OpenedAlike r J db disk ↔
      OpensHarmless r J db disk := by
  by_cases hlost : r.schema = true ∧ Store.readSchemaRecord J disk ≠ ∅
  · -- the schema is not read though there is one, so the store opens on another
    have hno : ¬OpenedAlike r J db disk := by
      intro halike
      have htables := congrArg (fun result => (after result).tables) halike.same
      rw [← FailedReads.openStore_none, tables_openStore, tables_openStore,
        if_pos hlost.1] at htables
      exact hlost.2 htables.symm
    rw [or_iff_left hno, leftAlone_iff_firstRefused hlost.1]
    constructor
    · exact fun hfirst => ⟨fun _ _ => hfirst, fun hempty => absurd (hempty hlost.1) hlost.2⟩
    · exact fun hharmless => hharmless.schema hlost.1 hlost.2
  · have hseen : r.schema = true → Store.readSchemaRecord J disk = ∅ := fun hschema =>
      not_not.mp fun hne => hlost ⟨hschema, hne⟩
    have htables : (if r.schema then ∅ else Store.readSchemaRecord J disk) =
        Store.readSchemaRecord J disk := by
      split_ifs with hschema
      · exact (hseen hschema).symm
      · rfl
    have hsame := openStore_cases {} J db disk
    have hrun := openStore_cases r J db disk
    -- the tables are read alike, and only the terms may differ
    have hread : r.readTables J db { disk } = ({} : FailedReads).readTables J db { disk } := by
      rw [readTables_eq, readTables_eq, htables]
      rfl
    dsimp only at hsame hrun
    rw [htables] at hrun
    rw [if_neg Bool.false_ne_true] at hsame
    rcases hrun with ⟨hok, families, hread₁, hopen⟩ | ⟨hrefused, e, families, hread₁, hopen⟩
    · rcases hsame with ⟨-, families', hread₂, hopen'⟩ | ⟨hrefused, -⟩
      · obtain rfl : families = families' := by
          rw [hread₁, hread₂] at hread
          have := congrArg (fun result => (after result).disk.families) hread
          exact this
        have hnot : ¬LeftAlone disk (r.openStore J db disk) := by
          rintro ⟨e, s, hfail, -⟩
          rw [hopen] at hfail
          cases hfail
        rw [or_iff_right hnot]
        constructor
        · intro halike
          refine ⟨fun hschema hne => absurd (hseen hschema) hne, fun _ =>
            Or.inr fun partition hp => ?_⟩
          have hterms := congrArg (fun result => (after result).terms partition) halike.same
          rw [← FailedReads.openStore_none, hopen, hopen'] at hterms
          change (if r.terms partition then 0 else _) = (disk.terms partition).getD 0 at hterms
          rw [if_pos hp] at hterms
          exact hterms.symm
        · intro hharmless
          refine openedAlike_of_same ?_
          rw [← FailedReads.openStore_none, hopen, hopen']
          rcases hharmless.terms hseen with hrefused | hterms
          · exact absurd hrefused hok
          · have hloaded : ∀ partition,
                (if r.terms partition then 0 else (disk.terms partition).getD 0) =
                  (disk.terms partition).getD 0 := by
              intro partition
              split_ifs with hp
              · exact (hterms partition hp).symm
              · rfl
            simp only [FailedReads.loadTerms, Store.withFamilies, hloaded]
            rfl
      · exact absurd hrefused hok
    · -- a call of the database fails, and it fails for both
      rcases hsame with ⟨hok, -⟩ | ⟨-, e', families', hread₂, hopen'⟩
      · exact absurd hrefused hok
      · refine ⟨fun _ => ⟨fun hschema hne => absurd (hseen hschema) hne, fun _ => Or.inl hrefused⟩,
          fun _ => Or.inr (openedAlike_of_same ?_)⟩
        rw [← FailedReads.openStore_none, hopen, hopen', ← hread₁, ← hread₂, hread]

end Opening

/-! ### Reserving counts -/

theorem reserves_iff (r : FailedReads) (db : Database) (s : Store) :
    LeftAlone s.disk (r.reserveCounts db s) ∨ ReservedAlike r db s ↔ ReserveHarmless r db s := by
  -- the reservation that starts from a count
  let reserve (reserved : ℕ) : EStateM.Result StorageError Store Unit :=
    (do check db.putCount (ascii "Reserving a block of write counts")
        set { s with
          disk := { s.disk with count := some ((reserved + Store.countsPerReservation) % 2 ^ 64) }
          counts := reserved
          countsReserved := (reserved + Store.countsPerReservation) % 2 ^ 64 } : Action Unit) s
  have hrun : r.reserveCounts db s = reserve (if r.count then 0 else s.disk.count.getD 0) := rfl
  have hsound : Store.reserveCounts db s = reserve (s.disk.count.getD 0) := rfl
  rcases Store.check_cases db.putCount (ascii "Reserving a block of write counts") s with
    ⟨hok, hput⟩ | ⟨hne, e, hput⟩
  · have hreserve : ∀ reserved, reserve reserved = .ok ()
        { s with
          disk := { s.disk with count := some ((reserved + Store.countsPerReservation) % 2 ^ 64) }
          counts := reserved
          countsReserved := (reserved + Store.countsPerReservation) % 2 ^ 64 } := by
      intro reserved
      change (check db.putCount _ >>= fun _ => _) s = _
      rw [run_bind, hput]
      rfl
    have hnot : ¬LeftAlone s.disk (r.reserveCounts db s) := by
      rintro ⟨e, t, hfail, -⟩
      rw [hrun, hreserve] at hfail
      cases hfail
    rw [or_iff_right hnot]
    constructor
    · intro halike hcount
      have hsame := congrArg (fun result => (after result).counts) halike.same
      rw [hrun, hsound, hreserve, hreserve, if_pos hcount] at hsame
      exact Or.inl hsame.symm
    · intro hharmless
      have hsame : (if r.count then 0 else s.disk.count.getD 0) = s.disk.count.getD 0 := by
        split_ifs with hcount
        · exact ((hharmless hcount).resolve_right (not_not.mpr hok)).symm
        · rfl
      refine ⟨by rw [hrun, hsound, hsame], fun t ht => ?_⟩
      rw [hrun, hsame, hreserve] at ht
      cases ht
      exact le_rfl
  · refine ⟨fun _ _ => Or.inr hne, fun _ => Or.inl ⟨e, s, ?_, rfl⟩⟩
    rw [hrun]
    change (check db.putCount _ >>= fun _ => _) s = _
    rw [run_bind, hput]

/-! ### Importing -/

section Importing

variable {r : FailedReads} {db : Database} {s : Store} {name : Bytes} {family : Family}
  {file : List Store.Carried}

/-- What an import ends with, once it is known what is taken. -/
def takeIn (db : Database) (name : Bytes) (family : Family) (kept : List Store.Carried) :
    Action ℕ :=
  if kept = [] then pure 0
  else do
    check db.write (ascii "Importing a file into \"" ++ name ++ ascii "\"")
    modify fun s => s.setFamily name (Store.ingest family kept)
    pure kept.length

/-- The records of a file that an import takes. -/
def FailedReads.taken (r : FailedReads) (family : Family) (file : List Store.Carried) :
    List Store.Carried := file.filter (FailedReads.takes (r.deciding family file) family)

theorem takes_of_takes {fails : Bytes → Bool} {carried : Store.Carried}
    (h : Store.takes family carried = true) : FailedReads.takes fails family carried = true := by
  rw [FailedReads.takes, h, Bool.or_true]

/-- A record is taken that the walk finds nothing held for. -/
theorem takes_of_unseen {fails : Bytes → Bool} {carried : Store.Carried}
    (h : (fails carried.1 || decide (carried.1 ∉ family)) = true) :
    FailedReads.takes fails family carried = true := by
  rw [FailedReads.takes]
  rcases Bool.or_eq_true_iff.mp h with hfails | habsent
  · rw [hfails, Bool.true_or]
  · have hnone : Store.takes family carried = true := by
      rw [Store.takes, Std.ExtTreeMap.getElem?_eq_none (of_decide_eq_true habsent)]
      rfl
    rw [hnone, Bool.or_true]

/-- Nothing is taken away from what is taken by a key that could not be read. -/
theorem filter_takes_sublist (r : FailedReads) (family : Family) (file : List Store.Carried) :
    List.Sublist (file.filter (Store.takes family)) (r.taken family file) :=
  List.monotone_filter_right _ fun _ htakes => takes_of_takes htakes

/-- What is taken is what would be exactly where every key that could not be read was to be
taken. -/
theorem taken_eq_iff : r.taken family file = file.filter (Store.takes family) ↔
    ∀ carried ∈ file, r.deciding family file carried.1 = true →
      Store.takes family carried = true := by
  rw [FailedReads.taken]
  constructor
  · intro heq carried hmem hfails
    have hin : carried ∈ file.filter (FailedReads.takes (r.deciding family file) family) := by
      refine List.mem_filter.mpr ⟨hmem, ?_⟩
      rw [FailedReads.takes, hfails, Bool.true_or]
    rw [heq] at hin
    exact (List.mem_filter.mp hin).2
  · intro hall
    refine List.filter_congr fun carried hmem => ?_
    rw [FailedReads.takes]
    cases hfails : r.deciding family file carried.1 with
    | true => rw [hall carried hmem hfails, Bool.or_true]
    | false => exact Bool.false_or _

/-- The terms that a file raises are raised or need not be, or it throws with nothing changed. -/
theorem raiseTerms_cases (db : Database) (carried : PartitionTerms) (what : Bytes) (s : Store) :
    (((∀ partition, carried partition ≤ s.terms partition) ∨ db.writeTerms = .ok) ∧
        Store.raiseTerms db carried what s = .ok () (s.raisedTo carried)) ∨
      (¬((∀ partition, carried partition ≤ s.terms partition) ∨ db.writeTerms = .ok) ∧
        ∃ e, Store.raiseTerms db carried what s = .error e s) := by
  have hsound := Store.raiseTerms_eq carried what s
  unfold Store.raiseTerms at hsound ⊢
  rw [run_bind_get] at hsound ⊢
  split_ifs at hsound ⊢ with hnone
  · exact Or.inl ⟨Or.inl hnone, hsound⟩
  · rw [run_bind]
    rcases Store.check_cases db.writeTerms what s with ⟨hok, h⟩ | ⟨hne, e, h⟩
    · rw [h]
      exact Or.inl ⟨Or.inr hok, rfl⟩
    · rw [h]
      exact Or.inr ⟨not_or.mpr ⟨hnone, hne⟩, e, rfl⟩

theorem readFile_cases (db : Database) (what : Bytes) (s : Store) :
    ((db.writeScratch = true ∧ db.readFile = .ok) ∧ Store.readFile db what s = .ok () s) ∨
      (¬(db.writeScratch = true ∧ db.readFile = .ok) ∧
        ∃ e, Store.readFile db what s = .error e s) := by
  unfold Store.readFile
  split_ifs with hscratch
  · rcases Store.check_cases db.readFile what s with ⟨hok, h⟩ | ⟨hne, e, h⟩
    · exact Or.inl ⟨⟨hscratch, hok⟩, h⟩
    · exact Or.inr ⟨fun hread => hne hread.2, e, h⟩
  · exact Or.inr ⟨fun hread => hscratch hread.1, _, rfl⟩

/-- **An import is decided by one of its walks**: once the terms are raised it takes what that walk
finds newer or does not find. -/
theorem importRecords_cases (r : FailedReads) (db : Database) (file : List Store.Carried)
    (hfamily : s.disk.families[name]? = some family) :
    (ReachesRecords db s file ∧ r.importRecords db name file s =
        takeIn db name family (r.taken family file) (s.raisedTo (Store.carriedTerms file))) ∨
      (file = [] ∧ r.importRecords db name file s = .ok 0 s) ∨
      (¬ReachesRecords db s file ∧ ∃ e, r.importRecords db name file s = .error e s) := by
  by_cases hfile : file = []
  · exact Or.inr (Or.inl ⟨hfile, by rw [FailedReads.importRecords, if_pos hfile, run_pure]⟩)
  have hhandle : ∀ t : Store, t.disk.families = s.disk.families →
      Store.tableHandle name t = .ok family t := by
    intro t ht
    rw [Store.tableHandle, run_bind_get, ht, hfamily]
    rfl
  unfold FailedReads.importRecords
  rw [if_neg hfile, run_bind, hhandle s rfl]
  dsimp only
  rw [run_bind]
  rcases readFile_cases db (ascii "Importing a file into \"" ++ name ++ ascii "\"") s with
    ⟨hread, h⟩ | ⟨hno, e, h⟩
  · rw [h]
    dsimp only
    rw [run_bind]
    rcases raiseTerms_cases db (Store.carriedTerms file)
        (ascii "Importing a file into \"" ++ name ++ ascii "\"") s with ⟨hraised, h⟩ | ⟨hno, e, h⟩
    · refine Or.inl ⟨⟨hfile, hread.1, hread.2, hraised⟩, ?_⟩
      rw [h]
      dsimp only
      have hany : file.any (FailedReads.takes r.first family) = true ↔
          (file.filter (FailedReads.takes r.first family)).length ≠ 0 := by
        rw [Ne, List.length_eq_zero_iff, List.filter_eq_nil_iff, List.any_eq_true]
        push Not
        rfl
      unfold FailedReads.taken FailedReads.deciding
      by_cases hall : file.all (fun carried => r.first carried.1 || carried.1 ∉ family) = true
      · -- all of a file that the first walk found nothing of is taken
        have hwhole : file.filter (FailedReads.takes r.first family) = file :=
          List.filter_eq_self.mpr fun carried hmem =>
            takes_of_unseen (List.all_eq_true.mp hall carried hmem)
        have hsome : file.length ≠ 0 := fun hzero => hfile (List.eq_nil_of_length_eq_zero hzero)
        rw [if_pos hall, if_pos hall, hwhole, if_neg hsome, takeIn, if_neg hfile]
      · -- none of the file is taken, or some of it
        rw [if_neg hall, if_neg hall]
        by_cases hrecords : (file.filter (FailedReads.takes r.first family)).length = 0
        · have hnone : ∀ carried ∈ file, ¬FailedReads.takes (fun _ => false)
            family carried = true := by
            intro carried hmem htakes
            have hfirst : FailedReads.takes r.first family carried = true :=
              takes_of_takes ((Bool.false_or _).symm.trans htakes)
            exact hany.mp (List.any_eq_true.mpr ⟨carried, hmem, hfirst⟩) hrecords
          rw [if_pos hrecords, if_neg fun h => hany.mp h hrecords, takeIn,
            if_pos (List.filter_eq_nil_iff.mpr hnone)]
        · rw [if_neg hrecords, if_pos (hany.mpr hrecords), run_bind,
            hhandle (s.raisedTo (Store.carriedTerms file)) rfl]
          rfl
    · -- the batch of the terms failed
      rw [h]
      exact Or.inr (Or.inr ⟨fun hreaches => hno hreaches.raised, e, rfl⟩)
  · -- the file could not be read
    rw [h]
    exact Or.inr (Or.inr ⟨fun hreaches => hno ⟨hreaches.scratch, hreaches.read⟩, e, rfl⟩)

/-- Where no reading fails it is the records that are newer that are taken. -/
theorem taken_none (family : Family) (file : List Store.Carried) :
    ({} : FailedReads).taken family file = file.filter (Store.takes family) := by
  refine taken_eq_iff.mpr fun carried _ hfails => ?_
  have hnever : ({} : FailedReads).deciding family file carried.1 = false := by
    unfold FailedReads.deciding
    split_ifs <;> rfl
  rw [hnever] at hfails
  cases hfails

theorem takeIn_cases (db : Database) (name : Bytes) (family : Family) (kept : List Store.Carried)
    (s : Store) :
    (kept = [] ∧ takeIn db name family kept s = .ok 0 s) ∨
      ((kept ≠ [] ∧ db.write = .ok) ∧ takeIn db name family kept s =
        .ok kept.length (s.setFamily name (Store.ingest family kept))) ∨
      ((kept ≠ [] ∧ db.write ≠ .ok) ∧ ∃ e, takeIn db name family kept s = .error e s) := by
  unfold takeIn
  split_ifs with hkept
  · exact Or.inl ⟨hkept, rfl⟩
  · rw [run_bind]
    rcases Store.check_cases db.write
      (ascii "Importing a file into \"" ++ name ++ ascii "\"") s with
      ⟨hok, h⟩ | ⟨hne, e, h⟩
    · rw [h]
      exact Or.inr (Or.inl ⟨⟨hkept, hok⟩, rfl⟩)
    · rw [h]
      exact Or.inr (Or.inr ⟨⟨hkept, hne⟩, e, rfl⟩)

/-- Of the records an import with its keys read ingests none is older than what was held. -/
theorem importedAlike_of_same
    (h : r.importRecords db name file s = Store.importRecords db name file s) :
    ImportedAlike r db s name file where
  same := h
  records family key held hfamily hheld := by
    rw [h, ← FailedReads.importRecords_none]
    -- what the table holds where nothing was ingested
    have hstill : ∀ t : Store, t.disk.families = s.disk.families →
        ∃ (now : Family) (value : Bytes), t.disk.families[name]? = some now ∧
          now[key]? = some value ∧ (value = held ∨ Record.isNewer value held = true) :=
      fun t ht => ⟨family, held, by rw [ht, hfamily], hheld, Or.inl rfl⟩
    rcases importRecords_cases {} db file hfamily with
      ⟨-, hrun⟩ | ⟨-, hrun⟩ | ⟨-, e, hrun⟩
    · rw [hrun, taken_none]
      rcases takeIn_cases db name family (file.filter (Store.takes family))
          (s.raisedTo (Store.carriedTerms file)) with ⟨-, htake⟩ | ⟨-, htake⟩ | ⟨-, e, htake⟩
      · rw [htake]
        exact hstill _ rfl
      · rw [htake]
        have hmem : key ∈ Store.ingest family (file.filter (Store.takes family)) :=
          Store.mem_ingest_of_mem
            (Std.ExtTreeMap.isSome_getElem?_iff_mem.mp (by rw [hheld]; rfl)) _
        obtain ⟨value, hvalue⟩ :=
          Option.isSome_iff_exists.mp (Std.ExtTreeMap.isSome_getElem?_iff_mem.mpr hmem)
        refine ⟨_, value, Std.ExtTreeMap.getElem?_insert_self, hvalue, ?_⟩
        rcases Store.mem_of_getElem?_ingest hvalue with htaken | hsame
        · have hnewer := (List.mem_filter.mp htaken).2
          rw [Store.takes, hheld] at hnewer
          exact Or.inr hnewer
        · exact Or.inl (Option.some.inj (hsame.symm.trans hheld))
      · rw [htake]
        exact hstill _ rfl
    · rw [hrun]
      exact hstill _ rfl
    · rw [hrun]
      exact hstill _ rfl

/-- Taking more in than is to be taken comes to the same where the write fails either way, and is
undone where it fails with nothing changed before. -/
theorem takesIn_iff {before : Disk} {kept sound : List Store.Carried}
    (hsub : List.Sublist sound kept) : LeftAlone before (takeIn db name family kept s) ∨
        takeIn db name family kept s = takeIn db name family sound s ↔
      kept = sound ∨ db.write ≠ .ok ∧ (sound ≠ [] ∨ s.disk = before) := by
  rcases takeIn_cases db name family kept s with ⟨hnil, hrun⟩ | ⟨⟨hcons, hok⟩, hrun⟩ |
    ⟨⟨hcons, hne⟩, e, hrun⟩
  · have hsound : kept = sound := by
      rw [hnil] at hsub ⊢
      exact (List.sublist_nil.mp hsub).symm
    exact ⟨fun _ => Or.inl hsound, fun _ => Or.inr (by rw [hsound])⟩
  · have hnot : ¬LeftAlone before (takeIn db name family kept s) := by
      rintro ⟨e, t, hfail, -⟩
      rw [hrun] at hfail
      cases hfail
    rw [or_iff_right hnot, or_iff_left fun h => h.1 hok]
    refine ⟨fun hsame => ?_, fun heq => by rw [heq]⟩
    -- as many are counted
    rw [hrun] at hsame
    rcases takeIn_cases db name family sound s with ⟨hnil, h⟩ | ⟨-, h⟩ | ⟨⟨-, hne⟩, -⟩
    · rw [h] at hsame
      injection hsame with hcount _
      exact absurd (List.eq_nil_of_length_eq_zero hcount) hcons
    · rw [h] at hsame
      injection hsame with hcount _
      exact (hsub.eq_of_length hcount.symm).symm
    · exact absurd hok hne
  · have halone : LeftAlone before (takeIn db name family kept s) ↔ s.disk = before := by
      constructor
      · rintro ⟨e', t, hfail, hsame⟩
        rw [hrun] at hfail
        cases hfail
        exact hsame
      · exact fun hsame => ⟨e, s, hrun, hsame⟩
    have hfails : takeIn db name family kept s = takeIn db name family sound s ↔ sound ≠ [] := by
      constructor
      · intro hsame hnil
        rw [hrun, takeIn, if_pos hnil] at hsame
        cases hsame
      · intro hsound
        rw [takeIn, takeIn, if_neg hcons, if_neg hsound, run_bind, run_bind]
        rcases Store.check_cases db.write (ascii "Importing a file into \"" ++ name ++ ascii "\"") s
          with ⟨hok, -⟩ | ⟨-, e', h⟩
        · exact absurd hok hne
        · rw [h]
    rw [halone, hfails]
    constructor
    · rintro (hsame | hsound)
      · exact Or.inr ⟨hne, Or.inr hsame⟩
      · exact Or.inr ⟨hne, Or.inl hsound⟩
    · rintro (heq | ⟨-, hsound | hsame⟩)
      · exact Or.inr (heq ▸ hcons)
      · exact Or.inr hsound
      · exact Or.inl hsame

/-- Raising the terms changes the disk but where it has them. -/
theorem disk_raisedTo_eq_iff {s : Store} {carried : PartitionTerms} :
    (s.raisedTo carried).disk = s.disk ↔
      ∀ partition, s.terms partition < carried partition →
        s.disk.terms partition = some (carried partition) := by
  constructor
  · intro hsame partition hlt
    have hterms := congrArg (fun disk => disk.terms partition) hsame
    rw [← hterms]
    exact if_pos hlt
  · intro hall
    have hterms : (fun partition => if s.terms partition < carried partition
        then some (carried partition) else s.disk.terms partition) = s.disk.terms := by
      funext partition
      split_ifs with hlt
      · exact (hall partition hlt).symm
      · rfl
    rw [Store.raisedTo, hterms]

theorem imports_iff (r : FailedReads) (db : Database) (s : Store) (name : Bytes)
    (file : List Store.Carried) :
    LeftAlone s.disk (r.importRecords db name file s) ∨ ImportedAlike r db s name file ↔
      ImportHarmless r db s name file := by
  cases hfamily : s.disk.families[name]? with
  | none =>
    -- there is no such table
    refine ⟨fun _ family hsome => ?_, fun _ => ?_⟩
    · rw [hfamily] at hsome
      cases hsome
    · by_cases hfile : file = []
      · refine Or.inr (importedAlike_of_same ?_)
        rw [hfile]
        rfl
      · refine Or.inl
          ⟨⟨.tableNotFound, ascii "No table named \"" ++ name ++ ascii "\"."⟩, s, ?_, rfl⟩
        rw [FailedReads.importRecords, if_neg hfile, run_bind, Store.tableHandle, run_bind_get,
          hfamily]
        rfl
  | some family =>
    have hrun := importRecords_cases r db file hfamily
    have hsound := importRecords_cases {} db file hfamily
    rw [FailedReads.importRecords_none] at hsound
    rcases hrun with ⟨hreaches, hrun⟩ | ⟨hfile, hrun⟩ | ⟨hno, e, hrun⟩
    · rcases hsound with ⟨-, hsound⟩ | ⟨hfile, -⟩ | ⟨hno, -⟩
      · rw [taken_none] at hsound
        have halike : ImportedAlike r db s name file ↔
            r.importRecords db name file s = Store.importRecords db name file s :=
          ⟨fun h => h.same, importedAlike_of_same⟩
        have hsome : file.filter (Store.takes family) ≠ [] ↔
            ∃ carried ∈ file, Store.takes family carried = true := by
          rw [Ne, List.filter_eq_nil_iff]
          push Not
          rfl
        -- both take what they take of one file, over the same terms
        rw [halike, hrun, hsound,
          takesIn_iff (filter_takes_sublist r family file), taken_eq_iff, hsome,
          disk_raisedTo_eq_iff]
        constructor
        · intro h other hother _
          obtain rfl : family = other := Option.some.inj (hfamily.symm.trans hother)
          exact h
        · exact fun h => h family hfamily hreaches
      · exact absurd hfile hreaches.some
      · exact absurd hreaches hno
    · refine ⟨fun _ other _ hreaches => absurd hfile hreaches.some, fun _ => Or.inr ?_⟩
      refine importedAlike_of_same ?_
      rw [hfile]
      rfl
    · exact ⟨fun _ other _ hreaches => absurd hreaches hno, fun _ => Or.inl ⟨e, s, hrun, rfl⟩⟩

end Importing

/-- **A reading that fails is not taken for an absence** exactly where it makes no difference:
opening a store, reserving counts and importing a file each throw with the disk as it was, or do
what they would have done, if and only if what could not be read was nothing, or was to be decided
on alike. -/
theorem failed_reads_iff (r : FailedReads) (J : JsonCodec) (db : Database) (disk : Disk) (s : Store)
    (name : Bytes) (file : List Store.Carried) :
    (LeftAlone disk (r.openStore J db disk) ∨ OpenedAlike r J db disk ↔ OpensHarmless r J db disk) ∧
      (LeftAlone s.disk (r.reserveCounts db s) ∨ ReservedAlike r db s ↔ ReserveHarmless r db s) ∧
      (LeftAlone s.disk (r.importRecords db name file s) ∨ ImportedAlike r db s name file ↔
        ImportHarmless r db s name file) :=
  ⟨opens_iff r J db disk, reserves_iff r db s, imports_iff r db s name file⟩

/-- A table that holds a record of the second term, with a block of counts reserved. -/
def secondTerm : Store where
  disk := { Disk.fresh with
    families := (∅ : Std.ExtTreeMap Bytes Family).insert (ascii "t")
      ((∅ : Family).insert [0, 1, 97] (Record.composeValue ⟨2, 1⟩ (ascii "newer")))
    count := some Store.countsPerReservation
    terms := fun _ => some 2 }
  terms := fun _ => 2

/-- Each reading of the first walk fails, and that of the record `COUNT`. -/
def blindWalk : FailedReads where
  count := true
  first := fun _ => true

/-- A file whose one record is of the first term. -/
def firstTerm : List Store.Carried :=
  [([0, 1, 97], Record.composeValue ⟨1, 9⟩ (ascii "older"))]

/-- The older record replaces the newer, and the block of counts is one that was handed out
before. -/
theorem failed_reads_blindWalk :
    ((after (blindWalk.importRecords {} (ascii "t") firstTerm
        secondTerm)).disk.families[ascii "t"]?.bind (·[([0, 1, 97] : Bytes)]?) =
          some (Record.composeValue ⟨1, 9⟩ (ascii "older")) ∧
      ¬(LeftAlone secondTerm.disk (blindWalk.importRecords {} (ascii "t") firstTerm secondTerm) ∨
        ImportedAlike blindWalk {} secondTerm (ascii "t") firstTerm)) ∧
      ((after (blindWalk.reserveCounts {} secondTerm)).counts = 0 ∧
        ¬(LeftAlone secondTerm.disk (blindWalk.reserveCounts {} secondTerm) ∨
          ReservedAlike blindWalk {} secondTerm)) := by
  refine ⟨⟨by decide +kernel, ?_⟩, rfl, ?_⟩
  · rw [imports_iff]
    intro hharmless
    have hfamily : secondTerm.disk.families[ascii "t"]? =
        some ((∅ : Family).insert [0, 1, 97] (Record.composeValue ⟨2, 1⟩ (ascii "newer"))) :=
      Std.ExtTreeMap.getElem?_insert_self
    rcases hharmless _ hfamily ⟨by decide, rfl, rfl, Or.inr rfl⟩ with htaken | ⟨hwrite, -⟩
    · have htakes := htaken _ List.mem_cons_self (by decide +kernel)
      revert htakes
      decide +kernel
    · exact hwrite rfl
  · rw [reserves_iff]
    intro hharmless
    rcases hharmless rfl with hzero | hput
    · exact absurd hzero (by decide)
    · exact hput rfl

end AsyncDatabase
