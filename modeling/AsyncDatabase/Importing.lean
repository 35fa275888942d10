import AsyncDatabase.Repository.Calls
import AsyncDatabase.Restart

/-!
# What an import does

`import_records` as a merge of two families, key by key: of what is held for a key and what the file
has for it the newer stays (`mergeValue`). `import_merges` says that this is what it does by
whichever way it goes, what it counts, and what becomes of the terms; `ingests_alike` that the way
that sends the file on as it came and the way that writes it out again are one where both may be
gone.
-/

namespace AsyncDatabase

open Bytes (ascii)
open Machine Throwing

/-! ### Merging by version -/

/-- Of the value held for a key and the one a file has for it, the file's where it is newer. -/
def mergeValue (held incoming : Option Bytes) : Option Bytes :=
  match held, incoming with
  | held, none => held
  | none, some incoming => some incoming
  | some held, some incoming => if Record.isNewer incoming held then some incoming else some held

/-- Where both values have versions, with no negative term, it is the versions that are compared. -/
theorem mergeValue_eq {held incoming : Bytes} (hheld : Record.versionSize ≤ held.length)
    (hincoming : Record.versionSize ≤ incoming.length) (hterm : 0 ≤ (Record.versionOf held).term)
    (hterm' : 0 ≤ (Record.versionOf incoming).term) :
    mergeValue (some held) (some incoming) =
      if (Record.versionOf held).rank < (Record.versionOf incoming).rank then some incoming
      else some held := by
  simp only [mergeValue, Record.isNewer_eq hincoming hheld hterm' hterm,
    Version.isNewer_iff_rank_lt]

/-- What a file has for a key. -/
def valueIn (file : List Store.Carried) (key : Bytes) : Option Bytes :=
  (file.find? (·.1 = key)).map Prod.snd

/-- The keys that a family holds something else for than it held before. -/
def changedKeys (before now : Family) : Set Bytes := {key | now[key]? ≠ before[key]?}

namespace Store

/-! ### The two ways of ingesting a file -/

/-- The file is ingested as it was sent. -/
def ingestSent (db : Database) (name : Bytes) (file : List Carried) : Action ℕ := do
  let what := ascii "Importing a file into \"" ++ name ++ ascii "\""
  let family ← tableHandle name
  let records := (file.filter (takes family)).length
  check db.write what
  modify fun s => s.setFamily name (ingest family file)
  pure records

/-- The records that are taken are written to a file of their own, and it is ingested. -/
def ingestKept (db : Database) (name : Bytes) (file : List Carried) : Action ℕ := do
  let what := ascii "Importing a file into \"" ++ name ++ ascii "\""
  let family ← tableHandle name
  let kept := file.filter (takes family)
  if kept = [] then pure 0
  else
    check db.write what
    modify fun s => s.setFamily name (ingest family kept)
    pure kept.length

/-- Both ways an import can go, as the import goes them. -/
theorem importRecords_ways (db : Database) {name : Bytes} {file : List Carried} {s t : Store}
    {family : Family} (hfile : file ≠ []) (hfamily : s.disk.families[name]? = some family)
    (hread : readFile db (ascii "Importing a file into \"" ++ name ++ ascii "\"") s = .ok () s)
    (hraise : raiseTerms db (carriedTerms file)
      (ascii "Importing a file into \"" ++ name ++ ascii "\"") s = .ok () t)
    (hsame : t.disk.families = s.disk.families) :
    importRecords db name file s =
      if (file.filter (takes family)).length = 0 then .ok 0 t
      else if file.all (·.1 ∉ family) then ingestSent db name file t
      else ingestKept db name file t := by
  have hhandle : tableHandle name s = .ok family s := by
    rw [tableHandle, run_bind_get, hfamily]
    rfl
  have hhandle' : tableHandle name t = .ok family t := by
    rw [tableHandle, run_bind_get, hsame, hfamily]
    rfl
  unfold importRecords
  rw [if_neg hfile, run_bind, hhandle]
  dsimp only
  rw [run_bind, hread]
  dsimp only
  rw [run_bind, hraise]
  dsimp only
  split_ifs with hnone hall
  · rfl
  · unfold ingestSent
    conv_rhs => rw [run_bind, hhandle']
  · rfl

/-- **The two ways are one** where the file has no key that is held, and some record. -/
theorem ingests_alike {db : Database} {name : Bytes} {file : List Carried} {s : Store}
    {family : Family} (hfile : file ≠ []) (hfamily : s.disk.families[name]? = some family)
    (habsent : ∀ carried ∈ file, carried.1 ∉ family) :
    ingestSent db name file s = ingestKept db name file s := by
  have hhandle : tableHandle name s = .ok family s := by
    rw [tableHandle, run_bind_get, hfamily]
    rfl
  unfold ingestSent ingestKept
  rw [run_bind, run_bind, hhandle]
  dsimp only
  rw [ingest_filter_of_forall habsent, if_neg hfile]

/-! ### What is held after an import -/

variable {family : Family} {file : List Carried}

theorem find?_filter_takes (hfile : (file.map Prod.fst).Nodup) (key : Bytes) :
    (file.filter (takes family)).find? (·.1 = key) =
      (file.find? (·.1 = key)).filter (takes family) := by
  have hkept : ((file.filter (takes family)).map Prod.fst).Nodup :=
    hfile.sublist (List.filter_sublist.map _)
  cases hfind : file.find? (·.1 = key) with
  | none =>
    rw [Option.filter_none, List.find?_eq_none]
    intro carried hmem
    exact List.find?_eq_none.mp hfind carried (List.mem_of_mem_filter hmem)
  | some carried =>
    have hmem : carried ∈ file := List.mem_of_find?_eq_some hfind
    have hkey : carried.1 = key := by simpa using List.find?_some hfind
    cases htakes : takes family carried with
    | true =>
      rw [Option.filter_some_pos htakes, ← hkey]
      exact Maps.find?_key_eq_some hkept (List.mem_filter.mpr ⟨hmem, htakes⟩)
    | false =>
      rw [Option.filter_some_neg (by simp [htakes]), List.find?_eq_none]
      intro other hother heq
      obtain ⟨hin, htaken⟩ := List.mem_filter.mp hother
      have hsame : other.1 = carried.1 := (by simpa using heq : other.1 = key).trans hkey.symm
      obtain rfl : other = carried :=
        List.inj_on_of_nodup_map hfile hin hmem hsame
      rw [htakes] at htaken
      cases htaken

/-- **An import merges by version, key by key.** -/
theorem getElem?_ingest_takes (hfile : (file.map Prod.fst).Nodup) (key : Bytes) :
    (ingest family (file.filter (takes family)))[key]? =
      mergeValue family[key]? (valueIn file key) := by
  have hkept : ((file.filter (takes family)).map Prod.fst).Nodup :=
    hfile.sublist (List.filter_sublist.map _)
  rw [getElem?_ingest hkept, find?_filter_takes hfile, valueIn]
  cases hfind : file.find? (·.1 = key) with
  | none => rfl
  | some carried =>
    have hkey : carried.1 = key := by simpa using List.find?_some hfind
    cases hheld : family[key]? with
    | none =>
      have htakes : takes family carried = true := by simp [takes, hkey, hheld]
      rw [Option.filter_some_pos htakes]
      rfl
    | some held =>
      have htakes : takes family carried = Record.isNewer carried.2 held := by
        simp [takes, hkey, hheld]
      cases hnewer : Record.isNewer carried.2 held with
      | true =>
        rw [Option.filter_some_pos (htakes.trans hnewer)]
        simp [mergeValue, hnewer]
      | false =>
        rw [Option.filter_some_neg (by simp [htakes, hnewer])]
        simp [mergeValue, hnewer]

/-- A value that is taken is not the one that was held. -/
theorem mergeValue_ne_iff {held incoming : Option Bytes} :
    mergeValue held incoming ≠ held ↔
      ∃ value, incoming = some value ∧ held.all (Record.isNewer value) = true := by
  cases incoming with
  | none => simp [mergeValue]
  | some value =>
    cases held with
    | none => simp [mergeValue]
    | some held =>
      cases hnewer : Record.isNewer value held with
      | false => simp [mergeValue, hnewer]
      | true =>
        have hne : value ≠ held := by
          rintro rfl
          rw [Record.isNewer_self] at hnewer
          cases hnewer
        simp [mergeValue, hnewer, hne]

/-- As many keys change as records are taken. -/
theorem encard_changedKeys (hfile : (file.map Prod.fst).Nodup) :
    (changedKeys family (ingest family (file.filter (takes family)))).encard =
      (file.filter (takes family)).length := by
  have hkept : ((file.filter (takes family)).map Prod.fst).Nodup :=
    hfile.sublist (List.filter_sublist.map _)
  have hkeys : changedKeys family (ingest family (file.filter (takes family))) =
      {key | key ∈ (file.filter (takes family)).map Prod.fst} := by
    ext key
    rw [changedKeys, Set.mem_ofPred_eq, getElem?_ingest_takes hfile, mergeValue_ne_iff,
      Set.mem_ofPred_eq]
    constructor
    · rintro ⟨value, hvalue, hall⟩
      obtain ⟨carried, hfind, rfl⟩ := Option.map_eq_some_iff.mp hvalue
      have hkey : carried.1 = key := by simpa using List.find?_some hfind
      refine List.mem_map.mpr
        ⟨carried, List.mem_filter.mpr ⟨List.mem_of_find?_eq_some hfind, ?_⟩, hkey⟩
      rw [takes, hkey]
      exact hall
    · intro hmem
      obtain ⟨carried, hkeeps, rfl⟩ := List.mem_map.mp hmem
      obtain ⟨hin, htakes⟩ := List.mem_filter.mp hkeeps
      refine ⟨carried.2, ?_, htakes⟩
      rw [valueIn, Maps.find?_key_eq_some hfile hin]
      rfl
  have hlist : {key | key ∈ (file.filter (takes family)).map Prod.fst} =
      ((((file.filter (takes family)).map Prod.fst).toFinset : Finset Bytes) : Set Bytes) := by
    ext key
    simp
  rw [hkeys, hlist, Set.encard_coe_eq_coe_finsetCard, List.toFinset_card_of_nodup hkept,
    List.length_map]

end Store

/-! ### The whole of an import -/

/-- What an import of a file into a table that holds `family` makes of a store, with what it
answers. -/
structure ImportMerges (s t : Store) (name : Bytes) (family now : Family)
    (file : List Store.Carried) (n : ℕ) : Prop where
  table : t.disk.families[name]? = some now
  /-- Each key holds what is newer of what was held and what the file has for it. -/
  merged : ∀ key, now[key]? = mergeValue family[key]? (valueIn file key)
  others : ∀ other, other ≠ name → t.disk.families[other]? = s.disk.families[other]?
  counted : (changedKeys family now).encard = n
  /-- No term of a record of the file is past that of its partition, in memory and on disk. -/
  raised : ∀ carried ∈ file, ∀ partition : Partition,
    Store.partitionHeld carried.1 = partition →
    (Record.versionOf carried.2).term ≤ t.terms partition ∧
      (Record.versionOf carried.2).term ≤ (t.disk.terms partition).getD 0
  /-- Where both ways may be gone the import is either of them. -/
  alike : file ≠ [] → (∀ carried ∈ file, carried.1 ∉ family) →
    Store.ingestSent {} name file (s.raisedTo (Store.carriedTerms file)) = .ok n t ∧
      Store.ingestKept {} name file (s.raisedTo (Store.carriedTerms file)) = .ok n t

/-- A file with nothing in it changes nothing. -/
theorem importMerges_nil {s : Store} {name : Bytes} {family : Family}
    (hfamily : s.disk.families[name]? = some family) :
    ImportMerges s s name family family [] 0 where
  table := hfamily
  merged key := rfl
  others _ _ := rfl
  counted := by
    have hnone : changedKeys family family = ∅ := by
      ext key
      simp [changedKeys]
    rw [hnone, Set.encard_empty]
    rfl
  raised carried hmem := by cases hmem
  alike hne := absurd rfl hne

/-- **An import is the merge by version of what is held and what the file has**, whichever way it
goes. -/
theorem import_merges {s : Store} (hterms : s.TermsKept) {name : Bytes} {family : Family}
    (hfamily : s.disk.families[name]? = some family) {file : List Store.Carried}
    (hfile : (file.map Prod.fst).Pairwise (· < ·)) :
    ∃ n t now, Store.importRecords {} name file s = .ok n t ∧
      ImportMerges s t name family now file n := by
  -- a sorted file has each key once
  have hnodup : (file.map Prod.fst).Nodup := by
    refine hfile.imp fun {key other} hlt heq => ?_
    subst heq
    exact List.lt_irrefl key hlt
  by_cases hne : file = []
  · subst hne
    exact ⟨0, s, family, rfl, importMerges_nil hfamily⟩
  obtain ⟨families, hrun, hfamilies⟩ := Store.importRecords_eq hne hfamily
  refine ⟨_, _, Store.ingest family (file.filter (Store.takes family)), hrun, ?_⟩
  have hraised := hterms.raisedTo (Store.carriedTerms file)
  refine
    { table := ?_
      merged := Store.getElem?_ingest_takes hnodup
      others := fun other hother => ?_
      counted := ?_
      raised := fun carried hmem partition hheld => ?_
      alike := fun _ habsent => ?_ }
  · exact (hfamilies name).trans (if_pos rfl)
  · exact (hfamilies other).trans (if_neg hother)
  · rw [Store.encard_changedKeys hnodup]
  · have hcarried := Store.term_le_carriedTerms hmem hheld
    have hmemory : (Record.versionOf carried.2).term ≤
        (s.raisedTo (Store.carriedTerms file)).terms partition := by
      rw [hterms.terms_raisedTo]
      exact hcarried.trans (le_max_right _ _)
    exact ⟨hmemory, hmemory.trans_eq (hraised.onDisk partition).symm⟩
  · have hfamily' : (s.raisedTo (Store.carriedTerms file)).disk.families[name]? = some family :=
      hfamily
    -- a file whose keys are all new is ingested as it is
    have hways := Store.importRecords_ways {} hne hfamily (by rfl)
      (Store.raiseTerms_eq _ _ s) rfl
    have htaken : file.filter (Store.takes family) = file := Store.ingest_filter_of_forall habsent
    have hsome : (file.filter (Store.takes family)).length ≠ 0 := by
      rw [htaken]
      exact fun hzero => hne (List.eq_nil_of_length_eq_zero hzero)
    have hall : file.all (·.1 ∉ family) = true := by simpa using habsent
    rw [if_neg hsome, if_pos hall] at hways
    have hsent := hways.symm.trans hrun
    exact ⟨hsent, (Store.ingests_alike hne hfamily' habsent) ▸ hsent⟩

/-- A table that holds one of two keys, at an older version. -/
def halfHeld : Store where
  disk := { Disk.fresh with
    families := (∅ : Std.ExtTreeMap Bytes Family).insert (ascii "t")
      ((∅ : Family).insert [0, 1, 97] (Record.composeValue ⟨1, 1⟩ (ascii "old"))) }

/-- A file of both keys. -/
def bothKeys : List Store.Carried :=
  [([0, 1, 97], Record.composeValue ⟨2, 1⟩ (ascii "new")),
    ([0, 1, 98], Record.composeValue ⟨1, 2⟩ (ascii "other"))]

theorem import_merges_bothKeys :
    ∃ n t now, Store.importRecords {} (ascii "t") bothKeys halfHeld = .ok n t ∧
      ImportMerges halfHeld t (ascii "t")
        ((∅ : Family).insert [0, 1, 97] (Record.composeValue ⟨1, 1⟩ (ascii "old")))
        now bothKeys n :=
  import_merges ⟨fun _ => le_rfl, fun _ => rfl⟩ Std.ExtTreeMap.getElem?_insert_self (by decide)

end AsyncDatabase
