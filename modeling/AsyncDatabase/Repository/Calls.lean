import AsyncDatabase.Library.Run
import AsyncDatabase.Repository.Scanning

/-!
# Runs of a store

The operations of a store as calls, whatever the database answers each, and what every run of them
keeps: the terms in memory are those of the disk and none is negative (`termsKept_run`), and the
keys of every table are ones that a PUT stores (`accepted_run`).
-/

namespace AsyncDatabase

open Machine Throwing

namespace Store

/-! ### What the operations on tables keep -/

/-- What a table made or dropped leaves alone, and a change of anything but records and terms. -/
structure Steady (I : Store → Prop) : Prop where
  setFamily : ∀ {s : Store}, I s → ∀ name, I (s.setFamily name ∅)
  eraseFamily : ∀ {s : Store}, I s → ∀ name, I (s.eraseFamily name)
  same : ∀ {s t : Store}, I s → t.terms = s.terms → t.disk.terms = s.disk.terms →
    t.disk.families = s.disk.families → I t

variable {I : Store → Prop} (J : JsonCodec) (db : Database)

theorem Steady.openFamily (h : Steady I) (name : Bytes) : Keeps I (openFamily db name) := by
  refine Keeps.get_bind fun s hs => ?_
  refine Keeps.ite (keeps_pure _) (Keeps.bind (keeps_check _ _) fun _ => ?_) s hs
  exact fun _ _ => h.setFamily hs name

theorem Steady.dropFamily (h : Steady I) (name : Bytes) : Keeps I (dropFamily db name) := by
  refine Keeps.get_bind fun s hs => ?_
  refine Keeps.ite (Keeps.bind (keeps_check _ _) fun _ => ?_) (keeps_pure _) s hs
  exact fun _ _ => h.eraseFamily hs name

theorem Steady.writeTables (h : Steady I) : Keeps I (writeTables J db) :=
  Keeps.bind (keeps_check _ _) fun _ _ hs => h.same hs rfl rfl rfl

theorem Steady.createTable (h : Steady I) (table : Table) (stamp : Version) :
    Keeps I (createTable J db table stamp) := by
  refine Keeps.bind (h.openFamily db table.name) fun _ => ?_
  refine Keeps.bind (fun _ hs => ?_) fun _ => h.writeTables J db
  exact h.same hs rfl rfl rfl

theorem Steady.deleteTable (h : Steady I) (name : Bytes) (stamp : Version) :
    Keeps I (deleteTable J db name stamp) := by
  refine Keeps.bind (h.dropFamily db name) fun _ => ?_
  refine Keeps.bind (fun _ hs => ?_) fun _ => h.writeTables J db
  exact h.same hs rfl rfl rfl

theorem Steady.mergeSchema (h : Steady I) (named : Schema) : Keeps I (mergeSchema J db named) := by
  refine Keeps.get_bind fun s hs => ?_
  refine Keeps.bind (I := I) (fun _ _ => h.same hs rfl rfl rfl) (fun _ => ?_) s hs
  refine Keeps.bind (Keeps.forM fun change _ => ?_) fun _ => ?_
  · exact Keeps.ite (h.openFamily db _) (h.dropFamily db _)
  · exact Keeps.bind (h.writeTables J db) fun _ => keeps_pure _

theorem Steady.nextCount (h : Steady I) : Keeps I (nextCount db) := by
  have hreserve : Keeps I (reserveCounts db) := by
    refine Keeps.get_bind fun s hs => ?_
    refine Keeps.bind (keeps_check _ _) (fun _ => ?_) s hs
    exact fun _ _ => h.same hs rfl rfl rfl
  have htake : Keeps I
      (do modify fun t => { t with counts := (t.counts + 1) % 2 ^ 64 }
          let t ← get
          pure t.counts : Action ℕ) :=
    fun _ hs => h.same hs rfl rfl rfl
  refine Keeps.get_bind fun s hs => ?_
  exact Keeps.ite (Keeps.bind hreserve fun _ => htake) htake s hs

/-! ### What the operations on records keep -/

/-- A program that goes on with a family of the store. -/
theorem keeps_tableHandle_bind {α : Type} {name : Bytes} {f : Family → Action α}
    (hf : ∀ s family, I s → s.disk.families[name]? = some family → I (after (f family s))) :
    Keeps I (tableHandle name >>= f) := by
  intro s hs
  rw [run_bind, tableHandle, run_bind_get]
  cases hfamily : s.disk.families[name]? with
  | none => exact hs
  | some family => exact hf s family hs hfamily

theorem keeps_readFile (what : Bytes) : Keeps I (readFile db what) :=
  Keeps.ite (keeps_check _ _) (keeps_throw _)

/-- What a pass ends with: it writes into a family. -/
theorem keeps_writeFamily {name what : Bytes} {family : Family} {n : ℕ}
    (hI : ∀ s, I s → I (s.setFamily name family)) :
    Keeps I
      (do check db.write what
          modify fun s => s.setFamily name family
          pure n : Action ℕ) :=
  Keeps.bind (keeps_check _ _) fun _ s hs => hI s hs

/-- **An import** keeps what raising the terms keeps, and writing records of its file. -/
theorem keeps_importRecords {name : Bytes} {file : List Carried}
    (hraised : ∀ s, I s → I (s.raisedTo (carriedTerms file)))
    (hset : ∀ s t family kept, I s → s.disk.families[name]? = some family → kept ⊆ file → I t →
      I (t.setFamily name (ingest family kept))) : Keeps I (importRecords db name file) := by
  refine Keeps.ite (keeps_pure _) (keeps_tableHandle_bind fun s family hs hfamily => ?_)
  refine Keeps.bind (keeps_readFile db _) (fun _ => ?_) s hs
  refine Keeps.bind ?_ fun _ => Keeps.ite (keeps_pure _) (Keeps.ite ?_ ?_)
  · refine Keeps.get_bind fun t ht => ?_
    refine Keeps.ite (keeps_pure _) (Keeps.bind (keeps_check _ _) fun _ => ?_) t ht
    exact fun _ _ => hraised t ht
  · exact keeps_writeFamily db fun t ht => hset s t family file hs hfamily (fun _ h => h) ht
  · refine keeps_tableHandle_bind fun t held ht hheld => ?_
    refine Keeps.ite (keeps_pure _) (keeps_writeFamily db fun u hu => ?_) t ht
    exact hset t u held _ ht hheld (List.filter_subset_self _) hu

theorem keeps_clearRecords {name : Bytes} {file : List Carried}
    (hset : ∀ s t family keys, I s → s.disk.families[name]? = some family → I t →
      I (t.setFamily name (eraseAll family keys))) : Keeps I (clearRecords db name file) := by
  refine Keeps.ite (keeps_pure _) (keeps_tableHandle_bind fun s family hs hfamily => ?_)
  refine Keeps.bind (keeps_readFile db _) (fun _ => ?_) s hs
  exact Keeps.ite (keeps_pure _) (keeps_writeFamily db fun t ht => hset s t family _ hs hfamily ht)

/-! ### Calls -/

/-- An operation on a store, with what the database answers it. -/
inductive Call where
  | create (db : Database) (table : Table) (stamp : Version)
  | delete (db : Database) (name : Bytes) (stamp : Version)
  | merge (db : Database) (named : Schema)
  | count (db : Database)
  | write (db : Database) (name : Bytes) (record : Record)
  | imported (db : Database) (name : Bytes) (file : List Carried)
  | cleared (db : Database) (name : Bytes) (file : List Carried)
  /-- The process stops and the store is opened again. -/
  | reopen

def call (s : Store) : Call → Store
  | .create db table stamp => after (createTable J db table stamp s)
  | .delete db name stamp => after (deleteTable J db name stamp s)
  | .merge db named => after (mergeSchema J db named s)
  | .count db => after (nextCount db s)
  | .write db name record => after (writeRecord db name record s)
  | .imported db name file => after (importRecords db name file s)
  | .cleared db name file => after (clearRecords db name file s)
  | .reopen => after (openStore J {} s.disk)

/-! ### The terms of a store -/

theorem steady_termsKept : Steady TermsKept where
  setFamily h _ := h.of_terms rfl rfl
  eraseFamily h _ := h.of_terms rfl rfl
  same h hmem hdisk _ := h.of_terms hmem hdisk

theorem TermsKept.written {s : Store} (h : s.TermsKept) (name : Bytes) (family : Family)
    (record : Record) : (s.written name family record).TermsKept := by
  have hset : (s.setFamily name (family.insert (storeKey record.key)
      (Record.composeValue record.stamp record.value))).TermsKept := h.of_terms rfl rfl
  unfold Store.written
  dsimp only
  split_ifs with hle
  · exact hset
  · exact hset.raiseTerm (not_le.mp hle)

/-- A store that is opened has the terms of its disk. -/
theorem termsKept_openStore {disk : Disk}
    (hdisk : ∀ partition, 0 ≤ (disk.terms partition).getD 0) :
    (after (openStore J {} disk)).TermsKept := by
  obtain ⟨families, hopen, -⟩ := openStore_eq J disk
  rw [hopen]
  exact ⟨hdisk, fun _ => rfl⟩

theorem TermsKept.call {s : Store} (h : s.TermsKept) (c : Call) : (s.call J c).TermsKept := by
  cases c with
  | create db table stamp => exact steady_termsKept.createTable J db table stamp s h
  | delete db name stamp => exact steady_termsKept.deleteTable J db name stamp s h
  | merge db named => exact steady_termsKept.mergeSchema J db named s h
  | count db => exact steady_termsKept.nextCount db s h
  | write db name record =>
    rw [Store.call]
    rcases writeRecord_cases db name record s with ⟨e, hrun⟩ | ⟨family, -, ⟨-, hrun⟩ | ⟨-, hrun⟩⟩
    all_goals rw [hrun]
    · exact h
    · exact h
    · exact h.written name family record
  | imported db name file =>
    exact keeps_importRecords db (fun t ht => ht.raisedTo _)
      (fun _ t _ _ _ _ _ ht => ht.of_terms rfl rfl) s h
  | cleared db name file =>
    exact keeps_clearRecords db (fun _ t _ _ _ _ ht => ht.of_terms rfl rfl) s h
  | reopen =>
    exact termsKept_openStore J fun partition => by rw [h.onDisk]; exact h.nonneg partition

/-- **A store a process has got has its terms on disk**, and no negative one, whatever was done to
it and whatever failed. -/
theorem termsKept_run (calls : List Call) :
    (run (call J) (after (openStore J {} Disk.fresh)) calls).TermsKept :=
  Throughout.invariant (C := fun _ _ => True) (fun _ c hs _ => hs.call J c)
    (termsKept_openStore J fun _ => le_rfl) (throughout_true _ calls)

/-! ### The keys of a store -/

/-- The keys of every table are ones that a PUT stores. -/
def HasAccepted (s : Store) : Prop :=
  ∀ (name : Bytes) (family : Family), s.disk.families[name]? = some family → Accepted family

/-- A record that is written is one a PUT was accepted for, and a file has records of such. -/
def Call.IsAccepted : Call → Prop
  | .write _ _ record => ∃ accepted, Record.parseKey record.key = .ok accepted
  | .imported _ _ file => ∀ carried ∈ file, ∃ named record, Record.parseKey named = .ok record ∧
      carried.1 = storeKey named
  | _ => True

theorem HasAccepted.of_insert {s t : Store} (h : s.HasAccepted) {name : Bytes} {family : Family}
    (hfamily : Accepted family) (ht : t.disk.families = s.disk.families.insert name family) :
    t.HasAccepted := by
  intro other held hheld
  rw [ht, Std.ExtTreeMap.getElem?_insert] at hheld
  split_ifs at hheld
  · rw [← Option.some.inj hheld]
    exact hfamily
  · exact h other held hheld

theorem steady_hasAccepted : Steady HasAccepted where
  setFamily h _ := h.of_insert accepted_empty rfl
  eraseFamily {s} h name := by
    intro other held hheld
    change (s.disk.families.erase name)[other]? = some held at hheld
    rw [Std.ExtTreeMap.getElem?_erase] at hheld
    split_ifs at hheld
    exact h other held hheld
  same h _ _ hfamilies name family hfamily := h name family (by rwa [hfamilies] at hfamily)

theorem accepted_ingest {family : Family} (h : Accepted family) {file : List Carried}
    (hfile : ∀ carried ∈ file, ∃ named record, Record.parseKey named = .ok record ∧
      carried.1 = storeKey named) : Accepted (ingest family file) := by
  intro key hmem
  obtain ⟨value, hvalue⟩ :=
    Option.isSome_iff_exists.mp (Std.ExtTreeMap.isSome_getElem?_iff_mem.mpr hmem)
  rcases mem_of_getElem?_ingest hvalue with hin | hheld
  · exact hfile _ hin
  · refine h key ?_
    rw [← Std.ExtTreeMap.isSome_getElem?_iff_mem, hheld]
    rfl

theorem accepted_eraseAll {family : Family} (h : Accepted family) (keys : List Bytes) :
    Accepted (eraseAll family keys) := by
  intro key hmem
  rw [← Std.ExtTreeMap.isSome_getElem?_iff_mem, getElem?_eraseAll] at hmem
  split_ifs at hmem
  · cases hmem
  · exact h key (Std.ExtTreeMap.isSome_getElem?_iff_mem.mp hmem)

/-- A store that is opened has the keys of its disk. -/
theorem hasAccepted_openStore {s : Store} (h : s.HasAccepted) :
    (after (openStore J {} s.disk)).HasAccepted := by
  obtain ⟨families, hopen, hfamilies⟩ := openStore_eq J s.disk
  rw [hopen]
  intro name family hfamily
  change families[name]? = some family at hfamily
  rw [hfamilies] at hfamily
  split_ifs at hfamily
  · cases hheld : s.disk.families[name]? with
    | none =>
      rw [hheld] at hfamily
      rw [← Option.some.inj hfamily]
      exact accepted_empty
    | some held =>
      rw [hheld] at hfamily
      rw [← Option.some.inj hfamily]
      exact h name held hheld
  · exact h name family hfamily

theorem HasAccepted.call {s : Store} (h : s.HasAccepted) {c : Call} (hc : c.IsAccepted) :
    (s.call J c).HasAccepted := by
  cases c with
  | create db table stamp => exact steady_hasAccepted.createTable J db table stamp s h
  | delete db name stamp => exact steady_hasAccepted.deleteTable J db name stamp s h
  | merge db named => exact steady_hasAccepted.mergeSchema J db named s h
  | count db => exact steady_hasAccepted.nextCount db s h
  | write db name record =>
    rw [Store.call]
    rcases writeRecord_cases db name record s with ⟨e, hrun⟩ | ⟨family, hfamily, hwritten⟩
    · rw [hrun]
      exact h
    · rcases hwritten with ⟨-, hrun⟩ | ⟨-, hrun⟩
      · rw [hrun]
        exact h
      · have haccepted := (h name family hfamily).insert (Record.exists_parseKey_iff.mp hc)
          (Record.composeValue record.stamp record.value)
        rw [hrun]
        exact h.of_insert haccepted (families_written s name family record)
  | imported db name file =>
    refine keeps_importRecords db (fun t ht => ?_)
      (fun t u family kept ht hfamily hkept hu => ?_) s h
    · exact fun name family hfamily => ht name family hfamily
    · exact hu.of_insert (accepted_ingest (ht name family hfamily) fun carried hmem =>
        hc carried (hkept hmem)) rfl
  | cleared db name file =>
    exact keeps_clearRecords db (fun t u family keys ht hfamily hu =>
      hu.of_insert (accepted_eraseAll (ht name family hfamily) keys) rfl) s h
  | reopen => exact hasAccepted_openStore J h

/-- **The keys of a store are ones that a PUT stores**, where those of what was written to it
were. -/
theorem accepted_run (calls : List Call)
    (hcalls : Throughout (call J) (fun _ c => c.IsAccepted)
      (after (openStore J {} Disk.fresh)) calls) :
    (run (call J) (after (openStore J {} Disk.fresh)) calls).HasAccepted := by
  refine Throughout.invariant (fun _ c hs hc => hs.call J hc) ?_ hcalls
  refine hasAccepted_openStore (s := { disk := Disk.fresh }) J fun name family hfamily => ?_
  have hempty : family = ∅ := by
    change Disk.fresh.families[name]? = some family at hfamily
    rw [Disk.fresh, Std.ExtTreeMap.getElem?_insert] at hfamily
    split_ifs at hfamily
    · exact (Option.some.inj hfamily).symm
    · simp at hfamily
  rw [hempty]
  exact accepted_empty

end Store

end AsyncDatabase
