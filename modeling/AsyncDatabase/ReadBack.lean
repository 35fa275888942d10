import AsyncDatabase.Router.Session

/-!
# Reading back what a scan names

A scan reports a record by the two halves of its key. `ReadsBack` says that the halves, put back
into a path, name the record; `scan_reads_back_iff` says of which keys that is so.
-/

namespace AsyncDatabase

open Bytes (ascii)

/-- A target names a record of a table. -/
def Names (target name key : Bytes) : Prop :=
  ∃ path partition sort, Session.routedPath target = some path ∧
    recordNamed path = some (name, partition, sort) ∧ key = Record.composeKey partition sort

/-- A PUT can store a record of the key: a target names it, and the key is one that is accepted. -/
def Putable (name key : Bytes) : Prop :=
  (∃ target, Names target name key) ∧ ∃ record, Record.parseKey key = .ok record

/-- What a scan says of a record's key. -/
def reportedFields (record : Record) (values : Bool) : Option Json × Option Json :=
  ((Node.recordJson record values).member? (ascii "key"),
    (Node.recordJson record values).member? (ascii "sort"))

/-- The path a client puts the fields of a record back into: one segment for a key with no sort
field, and two where there is one. -/
def pathBack (name : Bytes) : Option Json × Option Json → Option (List Bytes)
  | (some (.string key), none) => some [ascii "table", name, ascii "key", key]
  | (some (.string key), some (.string sort)) => some [ascii "table", name, ascii "key", key, sort]
  | _ => none

/-- What a scan reports for the key of a record names the record. -/
def ReadsBack (name key : Bytes) : Prop :=
  ∀ (record : Record) (values : Bool), record.key = key →
    ∃ path, pathBack name (reportedFields record values) = some path ∧
      Names (Url.joinPath path) name key

/-- Both halves of a key can be segments of a path, and a key with a separator has two. -/
structure Plain (key : Bytes) : Prop where
  partition_ne : Record.partitionKey key ≠ []
  partition_ne_dots : Record.partitionKey key ≠ ascii ".."
  sort_ne_dots : Record.sortKey key ≠ ascii ".."
  sort_ne : Record.sortSeparator ∈ key → Record.sortKey key ≠ []

/-! ### What is reported -/

theorem reportedFields_eq (record : Record) (values : Bool) :
    reportedFields record values =
      (some (.string (Record.partitionKey record.key)),
        if Record.sortKey record.key =
          [] then none else some (.string (Record.sortKey record.key))) := by
  have hkey : (ascii "sort" == ascii "key") = false := by decide
  have hvalue : (ascii "sort" == ascii "value") = false := by decide
  rw [reportedFields, Node.recordJson]
  split_ifs with hsort hvalues hvalues <;> simp [Json.member?, List.lookup_cons, hkey, hvalue]

/-- The path a client puts the halves of a key back into. -/
def segmentsOf (name key : Bytes) : List Bytes :=
  [ascii "table", name, ascii "key", Record.partitionKey key] ++
    if Record.sortKey key = [] then [] else [Record.sortKey key]

theorem pathBack_reportedFields (name : Bytes) (record : Record) (values : Bool) :
    pathBack name (reportedFields record values) = some (segmentsOf name record.key) := by
  rw [reportedFields_eq, segmentsOf]
  split_ifs <;> rfl

theorem readsBack_iff_names {name key : Bytes} :
    ReadsBack name key ↔ Names (Url.joinPath (segmentsOf name key)) name key := by
  constructor
  · intro h
    obtain ⟨path, hpath, hnames⟩ := h (Record.validRecord key []) false rfl
    rw [pathBack_reportedFields] at hpath
    cases hpath
    exact hnames
  · rintro h record values rfl
    exact ⟨_, pathBack_reportedFields name record values, h⟩

/-! ### What is put back -/

/-- A segment that a path keeps and a session does not refuse. -/
def IsSegment (segment : Bytes) : Prop := segment ≠ [] ∧ segment ≠ ascii ".."

instance (segment : Bytes) : Decidable (IsSegment segment) :=
  inferInstanceAs (Decidable (_ ∧ _))

/-- Segments that are put together into a path that has them. -/
theorem routedPath_joinPath {segments : List Bytes} (hne : segments ≠ [])
    (h : ∀ segment ∈ segments, IsSegment segment) :
    Session.routedPath (Url.joinPath segments) = some segments := by
  have hsplit : Url.splitPath (Url.joinPath segments) = segments := by
    rw [Url.splitPath_joinPath, List.filter_eq_self]
    intro segment hmem
    simpa using (h segment hmem).1
  have hhead : (Url.joinPath segments).head? = some Url.slash := by
    obtain ⟨segment, segments, rfl⟩ := List.exists_cons_of_ne_nil hne
    rfl
  rw [Session.routedPath, Session.hasTraversal_eq, hsplit, hhead, if_neg]
  rw [not_or]
  refine ⟨fun hno => hno rfl, ?_⟩
  rw [List.any_eq_true, not_exists]
  rintro segment ⟨hmem, hdots⟩
  exact (h segment hmem).2 (by simpa using hdots)

/-- The name of a table that a record was stored in is a segment. -/
theorem Names.isSegment {target name key : Bytes} (h : Names target name key) : IsSegment name := by
  obtain ⟨path, partition, sort, hpath, hnamed, -⟩ := h
  rw [Session.routedPath] at hpath
  split_ifs at hpath with hrefused
  cases hpath
  rw [not_or, Session.hasTraversal_eq] at hrefused
  have hmem : name ∈ Url.splitPath target := by
    unfold recordNamed at hnamed
    split at hnamed
    · next heq =>
      split_ifs at hnamed
      cases hnamed
      rw [heq]
      simp
    · next heq =>
      split_ifs at hnamed
      cases hnamed
      rw [heq]
      simp
    · cases hnamed
  refine ⟨Url.ne_nil_of_mem_splitPath hmem, fun hdots => hrefused.2 ?_⟩
  exact List.any_eq_true.mpr ⟨name, hmem, by simpa using hdots⟩

theorem Plain.readsBack {name key : Bytes} (hname : IsSegment name) (h : Plain key) :
    Names (Url.joinPath (segmentsOf name key)) name key := by
  have hsegments : ∀ segment ∈ segmentsOf name key, IsSegment segment := by
    have hpartition : IsSegment (Record.partitionKey key) := ⟨h.partition_ne, h.partition_ne_dots⟩
    have hfirst : ∀ segment ∈ [ascii "table", name, ascii "key", Record.partitionKey key],
        IsSegment segment := by
      simp only [List.forall_mem_cons, List.not_mem_nil, false_implies, implies_true, and_true]
      exact ⟨by decide, hname, by decide, hpartition⟩
    intro segment hmem
    rcases List.mem_append.mp hmem with hin | hsort
    · exact hfirst segment hin
    · split_ifs at hsort with hnil
      · cases hsort
      · rw [List.mem_singleton.mp hsort]
        exact ⟨hnil, h.sort_ne_dots⟩
  have hkey := (Record.composeKey_halves_iff.mpr h.sort_ne).symm
  refine ⟨_, Record.partitionKey key, Record.sortKey key,
    routedPath_joinPath (by simp [segmentsOf]) hsegments, ?_, hkey⟩
  rw [segmentsOf]
  split_ifs with hnil
  · rw [hnil]
    rfl
  · rfl

theorem plain_of_names {name key : Bytes} (hname : IsSegment name)
    (h : Names (Url.joinPath (segmentsOf name key)) name key) : Plain key := by
  obtain ⟨path, partition, sort, hpath, hnamed, hkey⟩ := h
  rw [Session.routedPath] at hpath
  split_ifs at hpath with hrefused
  rw [not_or, Session.hasTraversal_eq, Url.splitPath_joinPath] at hrefused
  rw [Url.splitPath_joinPath] at hpath
  -- what a path keeps of the halves is no traversal
  have hdots : ∀ segment ∈ segmentsOf name key, segment ≠ ascii ".." := by
    rintro segment hmem rfl
    refine hrefused.2 (List.any_eq_true.mpr ⟨ascii "..", List.mem_filter.mpr ⟨hmem, rfl⟩, ?_⟩)
    exact decide_eq_true rfl
  have hsegment : ∀ segment : Bytes, segment ≠ [] → (!segment.isEmpty) = true := by
    intro segment hne
    simpa using hne
  have hne : Record.partitionKey key ≠ [] := by
    intro hnone
    rw [segmentsOf, hnone] at hpath
    by_cases hsort : Record.sortKey key = []
    · -- the empty segment is dropped and the path is that of a scan
      rw [if_pos hsort, List.append_nil] at hpath
      simp only [List.filter_cons, hsegment name hname.1, List.isEmpty_nil,
        List.filter_nil] at hpath
      cases hpath
      cases hnamed
    · rw [if_neg hsort] at hpath
      have hmem : Record.sortSeparator ∈ key := by
        by_contra hno
        exact hsort (Record.halves_of_notMem hno).2
      simp only [List.cons_append, List.nil_append, List.filter_cons, hsegment name hname.1,
        hsegment _ hsort, List.isEmpty_nil, List.filter_nil] at hpath
      cases hpath
      have hsame : key = Record.sortKey key := by
        cases hnamed
        exact hkey
      have hlength := congrArg List.length (hsame.symm.trans (Record.key_eq_of_mem hmem))
      simp [hnone] at hlength
  refine ⟨hne, hdots _ (by simp [segmentsOf]), ?_, fun hmem hnil => ?_⟩
  · intro hsort
    exact hdots (Record.sortKey key)
      (by rw [segmentsOf, if_neg (by rw [hsort]; decide)]; simp) hsort
  · rw [segmentsOf, if_pos hnil, List.append_nil] at hpath
    simp only [List.filter_cons, hsegment name hname.1, hsegment _ hne, List.filter_nil] at hpath
    cases hpath
    have hsame : key = Record.partitionKey key := by
      cases hnamed
      exact hkey
    have hlength := congrArg List.length (hsame.symm.trans (Record.key_eq_of_mem hmem))
    simp at hlength

/-- **What a scan names can be read back exactly where every key is plain.** -/
theorem scan_reads_back_iff {name : Bytes} {keys : Set Bytes}
    (hput : ∀ key ∈ keys, Putable name key) : ((∀ key ∈ keys, ReadsBack name key) ∧
      ∀ key ∈ keys, ∀ other ∈ keys, partitionOf key = partitionOf other → key ≠ other →
        ∀ (record record' : Record) (values : Bool), record.key = key → record'.key = other →
          reportedFields record values ≠ reportedFields record' values) ↔
      ∀ key ∈ keys, Plain key := by
  constructor
  · rintro ⟨hback, -⟩ key hkey
    obtain ⟨⟨target, hnames⟩, -⟩ := hput key hkey
    exact plain_of_names hnames.isSegment (readsBack_iff_names.mp (hback key hkey))
  · intro hplain
    refine ⟨fun key hkey => ?_, ?_⟩
    · obtain ⟨⟨target, hnames⟩, -⟩ := hput key hkey
      exact readsBack_iff_names.mpr ((hplain key hkey).readsBack hnames.isSegment)
    · rintro key hkey other hother - hne record record' values rfl rfl heq
      -- the fields of a plain key make it up again
      rw [reportedFields_eq, reportedFields_eq, Prod.mk.injEq, Option.some.injEq, Json.string.injEq]
        at heq
      obtain ⟨hpartition, hsort⟩ := heq
      have hsorts : Record.sortKey record.key = Record.sortKey record'.key := by
        split_ifs at hsort with hnil hnil' hnil'
        · rw [hnil, hnil']
        · rw [Option.some.injEq, Json.string.injEq] at hsort
          exact hsort
      refine hne ?_
      rw [← Record.composeKey_halves_iff.mpr (hplain _ hkey).sort_ne,
        ← Record.composeKey_halves_iff.mpr (hplain _ hother).sort_ne, hpartition, hsorts]

/-- A key that a path of two segments stores. -/
theorem putable_both : Putable (ascii "t") (Record.composeKey (ascii "a") (ascii "x")) :=
  ⟨⟨ascii "/table/t/key/a/x", [ascii "table", ascii "t", ascii "key", ascii "a", ascii "x"],
    ascii "a", ascii "x", by decide +kernel, by decide, by decide⟩,
    Record.exists_parseKey_iff.mpr (by decide)⟩

/-- Another of its partition, which a path of one segment stores. -/
theorem putable_alone : Putable (ascii "t") (ascii "a") :=
  ⟨⟨ascii "/table/t/key/a", [ascii "table", ascii "t", ascii "key", ascii "a"], ascii "a", [],
    by decide +kernel, by decide, by decide⟩, Record.exists_parseKey_iff.mpr (by decide)⟩

/-- A key that ends with the separator, which a path of one segment stores. -/
theorem putable_separator : Putable (ascii "t") [97, 0] :=
  ⟨⟨ascii "/table/t/key/a%00", [ascii "table", ascii "t", ascii "key", [97, 0]], [97, 0], [],
    by decide +kernel, by decide, by decide⟩, Record.exists_parseKey_iff.mpr (by decide)⟩

/-- The two of them. -/
def twoKeys : Set Bytes := {Record.composeKey (ascii "a") (ascii "x"), ascii "a"}

theorem scan_reads_back_iff_both :
    ((∀ key ∈ twoKeys, ReadsBack (ascii "t") key) ∧
      ∀ key ∈ twoKeys, ∀ other ∈ twoKeys, partitionOf key = partitionOf other → key ≠ other →
        ∀ (record record' : Record) (values : Bool), record.key = key → record'.key = other →
          reportedFields record values ≠ reportedFields record' values) ↔
      ∀ key ∈ twoKeys, Plain key := by
  refine scan_reads_back_iff fun key hkey => ?_
  rcases hkey with rfl | rfl
  · exact putable_both
  · exact putable_alone

/-- A key that ends with the separator is reported as the key without it. -/
theorem not_readsBack_separator :
    Putable (ascii "t") [97, 0] ∧ ¬ReadsBack (ascii "t") [97, 0] ∧
      reportedFields (Record.validRecord [97, 0] []) false =
        reportedFields (Record.validRecord (ascii "a") []) false := by
  refine ⟨putable_separator, fun h => ?_, by rw [reportedFields_eq, reportedFields_eq]; rfl⟩
  have hplain := plain_of_names ⟨by decide, by decide⟩ (readsBack_iff_names.mp h)
  exact hplain.sort_ne (by decide) (by decide)

end AsyncDatabase
