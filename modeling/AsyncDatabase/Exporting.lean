import AsyncDatabase.Repository.Scanning

/-!
# A file of a share

What `export_records` writes into a file: the records of a share behind one key and up to and
including another, partition by partition, until the budget is spent. `mem_exportRecords_iff` says
which records of a table those are.
-/

namespace AsyncDatabase

namespace Store

/-- `repository::max_file_bytes`. -/
def maxFileBytes : ℕ := 64 * 1024 * 1024

/-- `repository::share`: the records of these partitions whose keys are after one key and up to
another, either of which may be missing. -/
structure FileShare where
  partitions : PartitionSet
  after : Option Bytes := none
  upTo : Option Bytes := none
  values : Bool := true
  bytes : ℕ := maxFileBytes

/-- `repository::extract`: the records that a file carries, and where to resume. -/
structure Extract where
  file : List Carried := []
  last : Bytes := []
  hasMore : Bool := false
  deriving DecidableEq

/-- What the loops of an export have got to. -/
structure Exporting where
  taken : Extract := {}
  bytes : ℕ := 0
  done : Bool := false

/-- What a file carries of a record: its value, or the version alone. -/
def FileShare.carried (wanted : FileShare) (held : Carried) : Carried :=
  (held.1, if wanted.values then held.2 else held.2.take Record.versionSize)

/-- What a record takes of the budget. -/
def FileShare.sizeOf (wanted : FileShare) (held : Carried) : ℕ :=
  held.1.length + if wanted.values then held.2.length else 0

/-- The loop over the records of one partition. -/
def exportFrom (wanted : FileShare) : List Carried → Exporting → Exporting
  | [], s => s
  | held :: rest, s =>
    if wanted.after = some held.1 then exportFrom wanted rest s
    else if wanted.upTo.any (· < held.1) then { s with done := true }
    else
      let taken := { s.taken with file := s.taken.file ++ [wanted.carried held] }
      let bytes := s.bytes + wanted.sizeOf held
      if wanted.bytes ≤ bytes then
        { s with taken := { taken with last := held.1, hasMore := true }, bytes }
      else exportFrom wanted rest { s with taken, bytes }

/-- The key an iterator of a partition begins at. -/
def lowerOf (wanted : FileShare) (partition : Partition) : Bytes :=
  match wanted.after with
  | some bound => if partitionPrefix partition < bound then bound else partitionPrefix partition
  | none => partitionPrefix partition

/-- One turn of the loop over the partitions. -/
def exportPartition (wanted : FileShare) (family : Family) (s : Exporting) (partition : Partition) :
    Exporting :=
  if s.done ∨ wanted.bytes ≤ s.bytes ∨ partition ∉ wanted.partitions then s
  else
    let start := partitionPrefix partition
    let after := partitionPrefix (partition + 1)
    if wanted.after.any (after ≤ ·) then s
    else if wanted.upTo.any (· < start) then { s with done := true }
    else
      let lower := lowerOf wanted partition
      exportFrom wanted (family.toList.filter fun held => lower ≤ held.1 ∧ held.1 < after) s

def exportRecords (family : Family) (wanted : FileShare) : Extract :=
  ((List.finRange partitionCount).foldl (exportPartition wanted family) {}).taken

end Store

/-! ### The partition of a key that is held -/

namespace Store

/-- A key of the store is in the range of a partition. -/
def InRange (partition : Partition) (key : Bytes) : Prop :=
  partitionPrefix partition ≤ key ∧ key < partitionPrefix (partition + 1)

instance (partition : Partition) (key : Bytes) : Decidable (InRange partition key) :=
  inferInstanceAs (Decidable (_ ∧ _))

theorem inRange_storeKey_iff {partition : Partition} {key : Bytes} :
    InRange partition (storeKey key) ↔ partitionOf key = partition := by
  have hstart := Scan.storeKey_lt_iff key [] partition
  rw [List.append_nil] at hstart
  rw [InRange, ← Std.not_lt, hstart, Scan.storeKey_lt_end_iff]
  simp only [List.not_lt_nil, and_false, or_false, not_lt]
  exact ⟨fun h => le_antisymm h.2 h.1, fun h => ⟨h.ge, h.le⟩⟩

/-- The ranges of the partitions follow one another. -/
theorem partitionPrefix_le {earlier later : Partition} (h : earlier < later) :
    partitionPrefix (earlier + 1) ≤ partitionPrefix later := by
  have hlater : (later : ℕ) < 256 := later.isLt
  have hlt : (earlier : ℕ) < later := h
  rw [← Std.not_lt, partitionPrefix_eq hlater, partitionPrefix_eq (by omega), List.cons_lt_cons_iff,
    List.cons_lt_cons_iff, Scan.ofNat_lt_ofNat_iff hlater (by omega)]
  simp only [UInt8.lt_irrefl, List.not_lt_nil, and_false, or_false, true_and, false_or]
  omega

theorem partitionPrefix_le_next (partition : Partition) :
    partitionPrefix partition ≤ partitionPrefix (partition + 1) := by
  have hpartition : (partition : ℕ) < 256 := partition.isLt
  by_cases hlast : (partition : ℕ) = 255
  · rw [hlast]
    decide
  · rw [← Std.not_lt, partitionPrefix_eq hpartition, partitionPrefix_eq (by omega),
      List.cons_lt_cons_iff, List.cons_lt_cons_iff, Scan.ofNat_lt_ofNat_iff (by omega) hpartition]
    simp only [UInt8.lt_irrefl, List.not_lt_nil, and_false, or_false, true_and, false_or]
    omega

/-- A key that is in the range of a partition is not empty. -/
theorem InRange.ne_nil {partition : Partition} {key : Bytes} (h : InRange partition key) :
    key ≠ [] := by
  rintro rfl
  rw [InRange, partitionPrefix_eq partition.isLt, ← Std.not_lt] at h
  exact h.1 (by simp)

/-! ### What a file has -/

/-- A key is behind the one that a share is after, and no further than the one it goes up to. -/
def FileShare.Admits (wanted : FileShare) (key : Bytes) : Prop :=
  wanted.after.all (· < key) = true ∧ wanted.upTo.any (· < key) = false

instance (wanted : FileShare) (key : Bytes) : Decidable (wanted.Admits key) :=
  inferInstanceAs (Decidable (_ ∧ _))

/-- What an export may take of one partition, and of several, in the order it comes to it. -/
def exportable (family : Family) (wanted : FileShare) (partition : Partition) : List Carried :=
  family.toList.filter fun held => InRange partition held.1 ∧ wanted.Admits held.1

def exportables (family : Family) (wanted : FileShare) (partitions : List Partition) :
    List Carried :=
  (partitions.filter (· ∈ wanted.partitions)).flatMap (exportable family wanted)

/-- What the loops have done with the records that they may take: they took all of them and go on,
or are past the end of the share, or are cut off behind one of them. -/
inductive Took (wanted : FileShare) (l : List Carried) (past : Prop) (s : Exporting) : Prop where
  | all (hdone : s.done = false) (hbytes : s.bytes < wanted.bytes) (hmore : s.taken.hasMore = false)
    (hfile : s.taken.file = l.map wanted.carried)
  | past (hpast : past) (hdone : s.done = true) (hmore : s.taken.hasMore = false)
    (hfile : s.taken.file = l.map wanted.carried)
  | cut (front : List Carried) (held : Carried) (hfront : front ++ [held] <+: l)
    (hbytes : wanted.bytes ≤ s.bytes) (hmore : s.taken.hasMore = true)
    (hlast : s.taken.last = held.1) (hfile : s.taken.file = (front ++ [held]).map wanted.carried)

variable {wanted : FileShare} {family : Family}

/-- The loop over the records of a partition takes those that are admitted, up to the budget. -/
theorem took_exportFrom {records : List Carried} (hsorted : records.Pairwise fun a b => a.1 < b.1)
    (hlower : ∀ held ∈ records, wanted.after.any (held.1 < ·) = false) {before : List Carried}
    {s : Exporting} (hdone : s.done = false) (hbytes : s.bytes < wanted.bytes)
    (hmore : s.taken.hasMore = false) (hfile : s.taken.file = before.map wanted.carried) :
    Took wanted (before ++ records.filter fun held => wanted.Admits held.1)
      (∃ held ∈ records, wanted.upTo.any (· < held.1) = true) (exportFrom wanted records s) := by
  induction records generalizing before s with
  | nil =>
    rw [List.filter_nil, List.append_nil]
    exact .all hdone hbytes hmore hfile
  | cons held rest ih =>
    obtain ⟨hfirst, hrest⟩ := List.pairwise_cons.mp hsorted
    have hlowerRest := fun other hother => hlower other (List.mem_cons_of_mem held hother)
    -- what is past the end of the rest is past the end of the whole
    have hmono : ∀ {l : List Carried} {s : Exporting},
        Took wanted l (∃ held ∈ rest, wanted.upTo.any (· < held.1) = true) s →
        Took wanted l (∃ other ∈ held :: rest, wanted.upTo.any (· < other.1) = true) s := by
      rintro l s (⟨hd, hb, hm, hf⟩ | ⟨⟨other, hother, hpast⟩, hd, hm, hf⟩ | ⟨front, last,
        hl, hb, hm, hlast, hf⟩)
      · exact .all hd hb hm hf
      · exact .past ⟨other, List.mem_cons_of_mem _ hother, hpast⟩ hd hm hf
      · exact .cut front last hl hb hm hlast hf
    rw [exportFrom]
    by_cases hafter : wanted.after = some held.1
    · -- the key the share resumes at
      have hno : ¬wanted.Admits held.1 := by
        rintro ⟨hall, -⟩
        rw [hafter, Option.all_some, decide_eq_true_iff] at hall
        exact Std.lt_irrefl hall
      rw [if_pos hafter, List.filter_cons_of_neg (by simpa using hno)]
      exact hmono (ih hrest hlowerRest hdone hbytes hmore hfile)
    rw [if_neg hafter]
    by_cases hpast : wanted.upTo.any (· < held.1) = true
    · -- the keys ascend, so none behind the end is admitted
      have hnone : (held :: rest).filter (fun held => wanted.Admits held.1) = [] := by
        refine List.filter_eq_nil_iff.mpr fun other hother hadmits => ?_
        obtain ⟨-, hup⟩ := of_decide_eq_true hadmits
        obtain ⟨bound, hbound, hlt⟩ := (Option.any_eq_true _ _).mp hpast
        rw [decide_eq_true_iff] at hlt
        rw [hbound, Option.any_some, decide_eq_false_iff_not] at hup
        rcases List.mem_cons.mp hother with rfl | hlater
        · exact hup hlt
        · exact hup (List.lt_trans hlt (hfirst other hlater))
      rw [if_pos hpast, hnone, List.append_nil]
      exact .past ⟨held, List.mem_cons_self, hpast⟩ rfl hmore hfile
    rw [if_neg hpast]
    -- it is between the two bounds
    have hadmits : wanted.Admits held.1 := by
      refine ⟨?_, by simpa using hpast⟩
      have hlow := hlower held List.mem_cons_self
      cases hbound : wanted.after with
      | none => rfl
      | some bound =>
        rw [hbound, Option.any_some, decide_eq_false_iff_not] at hlow
        rw [hbound, Option.some.injEq] at hafter
        exact decide_eq_true (Std.lt_of_le_of_ne (Std.not_lt.mp hlow) hafter)
    have hfileNext : s.taken.file ++ [wanted.carried held] =
      (before ++ [held]).map wanted.carried := by
      rw [List.map_append, ← hfile]
      rfl
    rw [List.filter_cons_of_pos (by simpa using hadmits), List.append_cons]
    dsimp only
    -- the record that fills the budget is the last of the file
    by_cases hfull : wanted.bytes ≤ s.bytes + wanted.sizeOf held
    · rw [if_pos hfull]
      exact .cut before held (List.prefix_append _ _) hfull rfl rfl hfileNext
    · rw [if_neg hfull]
      exact hmono (ih hrest hlowerRest hdone (not_le.mp hfull) hmore hfileNext)

theorem sorted_toList (family : Family) : family.toList.Pairwise fun a b => a.1 < b.1 :=
  Std.ExtTreeMap.ordered_keys_toList.imp fun hlt => Bytes.compare_eq_lt_iff.mp hlt

theorem mem_exportable {partition : Partition} {held : Carried} :
    held ∈ exportable family wanted partition ↔
      held ∈ family.toList ∧ InRange partition held.1 ∧ wanted.Admits held.1 := by
  rw [exportable, List.mem_filter, decide_eq_true_iff]

theorem exportables_concat (partitions : List Partition) (partition : Partition) :
    exportables family wanted (partitions ++ [partition]) = exportables family wanted partitions ++
      if partition ∈ wanted.partitions then exportable family wanted partition else [] := by
  unfold exportables
  rw [List.filter_append, List.flatMap_append]
  split_ifs with hmem
  · rw [List.filter_cons_of_pos (by simpa using hmem)]
    simp
  · rw [List.filter_cons_of_neg (by simpa using hmem)]
    simp

/-- The end of the share is before the end of one of these partitions. -/
def PastEnd (wanted : FileShare) (partitions : List Partition) : Prop :=
  ∃ partition ∈ partitions, wanted.upTo.any (· < partitionPrefix (partition + 1)) = true

theorem PastEnd.append {partitions : List Partition} (h : PastEnd wanted partitions)
    (more : List Partition) : PastEnd wanted (partitions ++ more) := by
  obtain ⟨partition, hmem, hpast⟩ := h
  exact ⟨partition, List.mem_append_left _ hmem, hpast⟩

theorem PastEnd.concat {partitions : List Partition} {partition : Partition} {key : Bytes}
    (hpast : wanted.upTo.any (· < key) = true) (hkey : key < partitionPrefix (partition + 1)) :
    PastEnd wanted (partitions ++ [partition]) := by
  refine ⟨partition, List.mem_append_right _ (List.mem_singleton_self partition), ?_⟩
  obtain ⟨bound, hbound, hlt⟩ := (Option.any_eq_true _ _).mp hpast
  rw [hbound, Option.any_some, decide_eq_true_iff]
  exact List.lt_trans (of_decide_eq_true hlt) hkey

/-- Nothing behind the end of the share is taken. -/
theorem exportable_eq_nil_of_upTo {partition : Partition} {key : Bytes}
    (hpast : wanted.upTo.any (· < key) = true) (hkey : key ≤ partitionPrefix partition) :
    exportable family wanted partition = [] := by
  refine List.filter_eq_nil_iff.mpr fun held _ htaken => ?_
  obtain ⟨hrange, -, hup⟩ := of_decide_eq_true htaken
  obtain ⟨bound, hbound, hlt⟩ := (Option.any_eq_true _ _).mp hpast
  rw [hbound, Option.any_some, decide_eq_false_iff_not] at hup
  exact hup (Std.lt_of_lt_of_le (of_decide_eq_true hlt) (Std.le_trans hkey hrange.1))

/-- Nothing of a partition that is behind the resume point altogether is taken. -/
theorem exportable_eq_nil_of_after {partition : Partition}
    (hbehind : wanted.after.any (partitionPrefix (partition + 1) ≤ ·) = true) :
    exportable family wanted partition = [] := by
  refine List.filter_eq_nil_iff.mpr fun held _ htaken => ?_
  obtain ⟨hrange, hafter, -⟩ := of_decide_eq_true htaken
  obtain ⟨bound, hbound, hle⟩ := (Option.any_eq_true _ _).mp hbehind
  rw [hbound, Option.all_some, decide_eq_true_iff] at hafter
  exact Std.lt_irrefl (List.lt_trans hafter (Std.lt_of_lt_of_le hrange.2 (of_decide_eq_true hle)))

theorem lowerOf_le_iff {partition : Partition} {key : Bytes} :
    lowerOf wanted partition ≤ key ↔
      partitionPrefix partition ≤ key ∧ wanted.after.any (key < ·) = false := by
  unfold lowerOf
  cases wanted.after with
  | none => simp
  | some bound =>
    rw [Option.any_some, decide_eq_false_iff_not, Std.not_lt]
    dsimp only
    split_ifs with hlt
    · exact ⟨fun h => ⟨Std.le_trans (List.le_of_lt hlt) h, h⟩, fun h => h.2⟩
    · exact ⟨fun h => ⟨h, Std.le_trans (Std.not_lt.mp hlt) h⟩, fun h => h.1⟩

/-- The iterator reads what is in the range of the partition and not before the point the share
resumes at. -/
theorem exportable_eq_filter (family : Family) (wanted : FileShare) (partition : Partition) :
    exportable family wanted partition =
      (family.toList.filter fun held => lowerOf wanted partition ≤ held.1 ∧
        held.1 < partitionPrefix (partition + 1)).filter fun held => wanted.Admits held.1 := by
  rw [List.filter_filter]
  refine List.filter_congr fun held _ => ?_
  rw [Bool.eq_iff_iff, decide_eq_true_iff, Bool.and_eq_true, decide_eq_true_iff,
    decide_eq_true_iff, lowerOf_le_iff]
  constructor
  · rintro ⟨hrange, hadmits⟩
    refine ⟨hadmits, ⟨hrange.1, ?_⟩, hrange.2⟩
    -- a key that is admitted is behind the point, not before it
    cases hbound : wanted.after with
    | none => rfl
    | some bound =>
      have hlt := hadmits.1
      rw [hbound, Option.all_some, decide_eq_true_iff] at hlt
      rw [Option.any_some, decide_eq_false_iff_not]
      exact Std.not_lt.mpr (List.le_of_lt hlt)
  · rintro ⟨hadmits, ⟨hlow, -⟩, hhigh⟩
    exact ⟨⟨hlow, hhigh⟩, hadmits⟩

/-- One partition more. -/
theorem Took.turn {partitions : List Partition} {partition : Partition}
    (hbehind : ∀ earlier ∈ partitions, earlier < partition) {s : Exporting}
    (h : Took wanted (exportables family wanted partitions) (PastEnd wanted partitions) s) :
    Took wanted (exportables family wanted (partitions ++ [partition]))
      (PastEnd wanted (partitions ++ [partition])) (exportPartition wanted family s partition) := by
  rw [exportables_concat]
  rcases h with ⟨hdone, hbytes, hmore, hfile⟩ | ⟨hpast, hdone, hmore, hfile⟩ |
    ⟨front, held, hfront, hbytes, hmore, hlast, hfile⟩
  · by_cases hmem : partition ∈ wanted.partitions
    · have hgoes : ¬(s.done = true ∨ wanted.bytes ≤ s.bytes ∨ partition ∉ wanted.partitions) := by
        rintro (hyes | hspent | hno)
        · exact Bool.false_ne_true (hdone.symm.trans hyes)
        · exact not_lt.mpr hspent hbytes
        · exact hno hmem
      rw [if_pos hmem, exportPartition, if_neg hgoes]
      dsimp only
      split_ifs with hafter hupTo
      · rw [exportable_eq_nil_of_after hafter, List.append_nil]
        exact .all hdone hbytes hmore hfile
      · rw [exportable_eq_nil_of_upTo hupTo (Std.le_refl _), List.append_nil]
        refine .past ?_ rfl hmore hfile
        obtain ⟨bound, hbound, hlt⟩ := (Option.any_eq_true _ _).mp hupTo
        refine ⟨partition, List.mem_append_right _ (List.mem_singleton_self partition), ?_⟩
        rw [hbound, Option.any_some, decide_eq_true_iff]
        exact Std.lt_of_lt_of_le (of_decide_eq_true hlt) (partitionPrefix_le_next partition)
      · have hread := exportable_eq_filter family wanted partition
        have htook := took_exportFrom ((sorted_toList family).filter fun held =>
            lowerOf wanted partition ≤ held.1 ∧ held.1 < partitionPrefix (partition + 1))
          (fun held hheld =>
            (lowerOf_le_iff.mp (of_decide_eq_true (List.mem_filter.mp hheld).2).1).2)
          hdone hbytes hmore hfile
        rw [← hread] at htook
        rcases htook with ⟨hd, hb, hm, hf⟩ | ⟨⟨held, hheld, hpast⟩, hd, hm, hf⟩ |
          ⟨front, last, hl, hb, hm, hlast, hf⟩
        · exact .all hd hb hm hf
        · refine .past (PastEnd.concat hpast ?_) hd hm hf
          exact (of_decide_eq_true (List.mem_filter.mp hheld).2).2
        · exact .cut front last hl hb hm hlast hf
    · rw [exportPartition, if_pos (Or.inr (Or.inr hmem)), if_neg hmem, List.append_nil]
      exact .all hdone hbytes hmore hfile
  · obtain ⟨earlier, hearlier, hend⟩ := hpast
    have hnil : exportable family wanted partition = [] :=
      exportable_eq_nil_of_upTo hend (partitionPrefix_le (hbehind earlier hearlier))
    rw [exportPartition, if_pos (Or.inl hdone), hnil, ite_self, List.append_nil]
    exact .past (PastEnd.append ⟨earlier, hearlier, hend⟩ _) hdone hmore hfile
  · rw [exportPartition, if_pos (Or.inr (Or.inl hbytes))]
    exact .cut front held (hfront.trans (List.prefix_append _ _)) hbytes hmore hlast hfile

theorem took_foldl {partitions : List Partition} (rest : List Partition)
    (hsorted : (partitions ++ rest).Pairwise (· < ·)) {s : Exporting}
    (h : Took wanted (exportables family wanted partitions) (PastEnd wanted partitions) s) :
    Took wanted (exportables family wanted (partitions ++ rest))
      (PastEnd wanted (partitions ++ rest)) (rest.foldl (exportPartition wanted family) s) := by
  induction rest generalizing partitions s with
  | nil =>
    rw [List.append_nil]
    exact h
  | cons partition rest ih =>
    rw [List.append_cons] at hsorted ⊢
    refine ih hsorted (h.turn fun earlier hearlier => ?_)
    have hfront := (List.pairwise_append.mp hsorted).1
    exact (List.pairwise_append.mp hfront).2.2 earlier hearlier partition
      (List.mem_singleton_self partition)

/-- A key of the store is in one of these partitions. -/
def InShare (partitions : PartitionSet) (key : Bytes) : Prop :=
  ∃ partition ∈ partitions, InRange partition key

theorem inShare_storeKey_iff {partitions : PartitionSet} {key : Bytes} :
    InShare partitions (storeKey key) ↔ partitionOf key ∈ partitions := by
  unfold InShare
  simp only [inRange_storeKey_iff, exists_eq_right']

theorem mem_exportables {held : Carried} :
    held ∈ exportables family wanted (List.finRange partitionCount) ↔
      family[held.1]? = some held.2 ∧ InShare wanted.partitions held.1 ∧ wanted.Admits held.1 := by
  unfold exportables InShare
  rw [List.mem_flatMap]
  constructor
  · rintro ⟨partition, hmem, hheld⟩
    obtain ⟨hlisted, hrange, hadmits⟩ := mem_exportable.mp hheld
    have hpartition := of_decide_eq_true (List.mem_filter.mp hmem).2
    exact ⟨Std.ExtTreeMap.mem_toList_iff_getElem?_eq_some.mp hlisted,
      ⟨partition, hpartition, hrange⟩, hadmits⟩
  · rintro ⟨hvalue, ⟨partition, hpartition, hrange⟩, hadmits⟩
    refine ⟨partition, List.mem_filter.mpr ⟨List.mem_finRange partition,
      decide_eq_true hpartition⟩, ?_⟩
    exact mem_exportable.mpr ⟨Std.ExtTreeMap.mem_toList_iff_getElem?_eq_some.mpr
      hvalue, hrange, hadmits⟩

/-- An export comes to its records in the order of their keys. -/
theorem sorted_exportables :
    (exportables family wanted (List.finRange partitionCount)).Pairwise fun a b => a.1 < b.1 := by
  unfold exportables
  have hpartitions :
    ((List.finRange partitionCount).filter (· ∈ wanted.partitions)).Pairwise (· < ·) :=
    (List.pairwise_lt_finRange partitionCount).filter _
  refine List.pairwise_flatMap.mpr ⟨fun partition _ => (sorted_toList family).filter _, ?_⟩
  refine hpartitions.imp fun {earlier later} hlt a ha b hb => ?_
  obtain ⟨-, harange, -⟩ := mem_exportable.mp ha
  obtain ⟨-, hbrange, -⟩ := mem_exportable.mp hb
  exact Std.lt_of_lt_of_le harange.2 (Std.le_trans (partitionPrefix_le hlt) hbrange.1)

/-- What a file has: all there is to take, or the front of it up to the record it was cut off
behind. -/
theorem exportRecords_cases (family : Family) {wanted : FileShare} (hbytes : 0 < wanted.bytes) :
    ((exportRecords family wanted).hasMore = false ∧ (exportRecords family wanted).file =
        (exportables family wanted (List.finRange partitionCount)).map wanted.carried) ∨
      ∃ front held, front ++ [held] <+: exportables family wanted (List.finRange partitionCount) ∧
        (exportRecords family wanted).hasMore = true ∧
        (exportRecords family wanted).last = held.1 ∧
        (exportRecords family wanted).file = (front ++ [held]).map wanted.carried := by
  have hstart : Took wanted (exportables family wanted []) (PastEnd wanted []) {} :=
    .all rfl hbytes rfl rfl
  have hsorted : ([] ++ List.finRange partitionCount).Pairwise (· < ·) := by
    rw [List.nil_append]
    exact List.pairwise_lt_finRange partitionCount
  have htook := took_foldl (List.finRange partitionCount) hsorted hstart
  rw [List.nil_append] at htook
  unfold exportRecords
  rcases htook with ⟨-, -, hmore, hfile⟩ | ⟨-, -, hmore, hfile⟩ | ⟨front, held, hl,
    -, hmore, hlast, hfile⟩
  · exact Or.inl ⟨hmore, hfile⟩
  · exact Or.inl ⟨hmore, hfile⟩
  · exact Or.inr ⟨front, held, hl, hmore, hlast, hfile⟩

section

variable (hbytes : 0 < wanted.bytes)
include hbytes

/-- **Which records a file has**: those of the partitions that are behind the resume point and not
past the end, up to the key it says to resume at. -/
theorem mem_exportRecords_iff {key stored : Bytes} :
    (key, stored) ∈ (exportRecords family wanted).file ↔
      ∃ value, family[key]? = some value ∧ wanted.carried (key, value) = (key, stored) ∧
        InShare wanted.partitions key ∧ wanted.Admits key ∧
        ((exportRecords family wanted).hasMore = true →
          ¬(exportRecords family wanted).last < key) := by
  have hcarried : ∀ held : Carried, (wanted.carried held).1 = held.1 := fun _ => rfl
  rcases exportRecords_cases family hbytes with ⟨hmore, hfile⟩ | ⟨front, last,
    hl, hmore, hlast, hfile⟩
  · -- the file is all of the share
    rw [hfile, hmore, List.mem_map]
    constructor
    · rintro ⟨held, hheld, hsame⟩
      obtain ⟨hvalue, hshare, hadmits⟩ := mem_exportables.mp hheld
      have hkey : held.1 = key := congrArg Prod.fst hsame
      subst hkey
      exact ⟨held.2, hvalue, hsame, hshare, hadmits, fun hno => by cases hno⟩
    · rintro ⟨value, hvalue, hsame, hshare, hadmits, -⟩
      exact ⟨(key, value), mem_exportables.mpr ⟨hvalue, hshare, hadmits⟩, hsame⟩
  · obtain ⟨rest, hrest⟩ := hl
    have hsorted := @sorted_exportables wanted family
    rw [← hrest] at hsorted
    obtain ⟨hfront, -, hbehind⟩ := List.pairwise_append.mp hsorted
    -- the file was cut, and nothing of it is behind its last key
    have hupTo : ∀ held ∈ front ++ [last], ¬last.1 < held.1 := by
      intro held hheld hlt
      rcases List.mem_append.mp hheld with hbefore | hsame
      · have hless := (List.pairwise_append.mp hfront).2.2 held hbefore last
          (List.mem_singleton_self last)
        exact Std.lt_irrefl (List.lt_trans hlt hless)
      · rw [List.mem_singleton.mp hsame] at hlt
        exact Std.lt_irrefl hlt
    rw [hfile, hmore, hlast, List.mem_map]
    constructor
    · rintro ⟨held, hheld, hsame⟩
      have hin : held ∈ exportables family wanted (List.finRange partitionCount) := by
        rw [← hrest]
        exact List.mem_append_left _ hheld
      obtain ⟨hvalue, hshare, hadmits⟩ := mem_exportables.mp hin
      have hkey : held.1 = key := congrArg Prod.fst hsame
      subst hkey
      exact ⟨held.2, hvalue, hsame, hshare, hadmits, fun _ => hupTo held hheld⟩
    · rintro ⟨value, hvalue, hsame, hshare, hadmits, hnot⟩
      -- what is not behind the last key is not in what was left
      have hin : (key, value) ∈ front ++ [last] ++ rest := by
        rw [hrest]
        exact mem_exportables.mpr ⟨hvalue, hshare, hadmits⟩
      refine ⟨(key, value), ?_, hsame⟩
      refine (List.mem_append.mp hin).resolve_right fun hlater => hnot rfl ?_
      exact hbehind last (List.mem_append_right _ (List.mem_singleton_self last)) _ hlater

/-- A file has its records in the order of their keys. -/
theorem sorted_exportRecords :
    (exportRecords family wanted).file.Pairwise fun a b => a.1 < b.1 := by
  have hsorted := @sorted_exportables wanted family
  rcases exportRecords_cases family hbytes with ⟨-, hfile⟩ | ⟨front, last, hl, -, -, hfile⟩
  · rw [hfile]
    exact List.pairwise_map.mpr hsorted
  · rw [hfile]
    exact List.pairwise_map.mpr (hsorted.sublist hl.sublist)

/-- Where there is more, the key to resume at is one of the share that the file has. -/
theorem last_exportRecords (hmore : (exportRecords family wanted).hasMore = true) :
    (exportRecords family wanted).last ∈ family ∧
      InShare wanted.partitions (exportRecords family wanted).last ∧
      wanted.Admits (exportRecords family wanted).last := by
  rcases exportRecords_cases family hbytes with ⟨hno, -⟩ | ⟨front, last, hl, -, hlast, -⟩
  · rw [hno] at hmore
    cases hmore
  · have hin := hl.subset (List.mem_append_right front (List.mem_singleton_self last))
    obtain ⟨hvalue, hshare, hadmits⟩ := mem_exportables.mp hin
    rw [hlast]
    refine ⟨?_, hshare, hadmits⟩
    rw [← Std.ExtTreeMap.isSome_getElem?_iff_mem, hvalue]
    rfl

end

end Store

end AsyncDatabase
