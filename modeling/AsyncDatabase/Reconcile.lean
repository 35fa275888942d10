import AsyncDatabase.Membership
import AsyncDatabase.Repository.Scanning

/-!
# Walking what does not belong here

The walk of a clear down (`reconcile/reconcile.cpp`): the records this node has in a partition it
does not hold, counted a page at a time. `walk_sees_all_iff` says for which sizes of page the walk
finds every one of them.
-/

namespace AsyncDatabase

open Bytes (ascii)
open Throwing

/-- `misplaced`: what the walk of a table found that does not belong here. -/
structure Misplaced where
  records : ℕ := 0
  /-- Records this node has that no node owns. -/
  orphaned : ℕ := 0
  finished : Bool := false
  /-- The partitions each node of this node's zone would have to be asked about. -/
  elsewhere : Std.ExtTreeMap Bytes PartitionSet := ∅

namespace Reconcile

/-- What a turn of the walk has: what was found, the last key of its page, and whether a key of it
was new. -/
structure Turn where
  found : Misplaced
  last : Option Bytes := none
  readAny : Bool := false

/-- A record that was found goes down against the copy in this node's own zone, which is the
first. -/
def misplace (place : Placement) (partition : Partition) (found : Misplaced) : Misplaced :=
  match place.nodes with
  | [] => { found with orphaned := found.orphaned + 1 }
  | node :: _ =>
    { found with
      elsewhere := found.elsewhere.insert node (insert partition (found.elsewhere[node]?.getD ∅))
      records := found.records + 1 }

/-- One turn of the loop over the records of a page. -/
def walkRecord (place : Placement) (range : Scan.Range) (turn : Turn) (record : Record) : Turn :=
  if range.hasLower = true ∧ record.key = range.lower then { turn with last := some record.key }
  else
    { found := misplace place range.partition turn.found
      last := some record.key
      readAny := true }

/-- `walk_partition`. The list says of each turn of its loop whether the pass is neither stopped nor
out of patience when it begins; with no turns left the walk has not ended. -/
def walkPartition (db : Database) (place : Placement) (name : Bytes) :
    List Bool → Scan.Range → Misplaced → Action (Option (Bool × Misplaced))
  | [], _, _ => pure none
  | false :: _, _, found => pure (some (false, found))
  | true :: turns, range, found => do
    let page ← Store.scanRecords db name range
    let turn := page.records.foldl (walkRecord place range) { found }
    match turn.last with
    | none => pure (some (true, turn.found))
    | some last =>
      if page.hasMore = false ∨ turn.readAny = false then pure (some (true, turn.found))
      else
        walkPartition db place name turns { range with lower := last, hasLower := true } turn.found

/-- The range a walk begins with: the keys alone, a page at a time. -/
def walkRange (partition : Partition) (page : ℕ) : Scan.Range where
  partition
  limit := page
  values := false

/-! ### A turn of the walk -/

variable {place : Placement} {partition : Partition} {range : Scan.Range}

/-- Where a placement names a node, what is found is a record and no orphan. -/
theorem records_misplace (hplace : place.nodes ≠ []) (found : Misplaced) :
    (misplace place partition found).records = found.records + 1 := by
  obtain ⟨node, nodes, hnodes⟩ := List.exists_cons_of_ne_nil hplace
  rw [misplace, hnodes]

/-- Records that are new to the walk are each counted. -/
theorem foldl_walkRecord (range : Scan.Range) (hplace : place.nodes ≠ []) (records : List Record)
    (hnew : ∀ record ∈ records, range.hasLower = true → record.key ≠ range.lower) (turn : Turn) :
    let after := records.foldl (walkRecord place range) turn
    after.found.records = turn.found.records + records.length ∧
      after.last = (records.getLast?.map Record.key).or turn.last ∧
      after.readAny = (turn.readAny || !records.isEmpty) := by
  induction records generalizing turn with
  | nil => simp
  | cons record records ih =>
    have hcounted : walkRecord place range turn record =
        { found := misplace place range.partition turn.found, last :=
          some record.key, readAny := true } :=
      if_neg fun hold => hnew record List.mem_cons_self hold.1 hold.2
    obtain ⟨hrecords, hlast, hread⟩ :=
      ih (fun other hother => hnew other (List.mem_cons_of_mem _ hother))
        { found := misplace place range.partition turn.found, last :=
          some record.key, readAny := true }
    rw [List.foldl_cons, hcounted]
    refine ⟨?_, ?_, ?_⟩
    · rw [hrecords, records_misplace hplace, List.length_cons]
      omega
    · rw [hlast, List.getLast?_cons]
      cases records.getLast? <;> rfl
    · rw [hread]
      simp

/-! ### The whole walk -/

variable {s : Store} {name : Bytes} {family : Family} {page : ℕ}

/-- The range of a turn that takes up at a key that was read. -/
def resumeAt (partition : Partition) (page : ℕ) (key : Bytes) : Scan.Range :=
  { walkRange partition page with lower := key, hasLower := true }

/-- A turn of the walk, with its page read. -/
theorem walkPartition_cons (place : Placement)
    (hfamily : s.disk.families[name]? = some family) (turns : List Bool)
    (range : Scan.Range) (found : Misplaced) :
    walkPartition {} place name (true :: turns) range found s =
      let page := Scan.fill range (Store.scanned family range) {} 0
      let turn := page.records.foldl (walkRecord place range) { found }
      match turn.last with
      | none => .ok (some (true, turn.found)) s
      | some last =>
        if page.hasMore = false ∨ turn.readAny = false then .ok (some (true, turn.found)) s
        else walkPartition {} place name turns { range with lower := last, hasLower := true }
          turn.found s := by
  have hscan : Store.scanRecords {} name range s =
      .ok (Scan.fill range (Store.scanned family range) {} 0) s := by
    rw [Store.scanRecords, run_bind, Store.tableHandle, run_bind_get, hfamily]
    rfl
  rw [walkPartition, run_bind, hscan]
  dsimp only
  cases ((Scan.fill range (Store.scanned family range) {} 0).records.foldl (walkRecord place range)
    { found }).last with
  | none => rfl
  | some last =>
    dsimp only
    split_ifs <;> rfl

/-- What the first turn goes over. -/
theorem scanned_walkRange (haccepted : Accepted family) (partition : Partition) (page : ℕ) :
    Store.scanned family (walkRange partition page) = recordsIn family partition := by
  have hall : ∀ key, (walkRange partition page).Admits key := fun key =>
    ⟨fun hlower => (by cases hlower), fun hupper => (by cases hupper)⟩
  rw [Scan.scanned_eq haccepted, if_neg (by rintro ⟨⟩)]
  exact List.filter_eq_self.mpr fun held _ => decide_eq_true (hall _)

/-- What a later turn goes over: the record it takes up at and those behind it. -/
theorem scanned_resumeAt (haccepted : Accepted family) {before behind : List (Bytes × Bytes)}
    {held : Bytes × Bytes} (hlist : recordsIn family partition = before ++ held :: behind) :
    Store.scanned family (resumeAt partition page (Store.composedKey held.1)) = held :: behind := by
  have hadmits : ∀ key, (resumeAt partition page (Store.composedKey held.1)).Admits key ↔
      ¬key < Store.composedKey held.1 := fun key =>
    ⟨fun hadmits => hadmits.1 rfl, fun hle => ⟨fun _ => hle, fun hupper => (by cases hupper)⟩⟩
  have hsorted := haccepted.pairwise_recordsIn partition
  rw [Scan.scanned_eq haccepted, if_neg (by rintro ⟨⟩)]
  change (recordsIn family partition).filter _ = _
  rw [hlist] at hsorted ⊢
  simp only [hadmits]
  exact Scan.filter_not_lt_eq hsorted

/-- **What a turn that takes up at a record does**: it counts those behind it that its page has, and
the walk ends where that is all of them, or none. -/
theorem walkPartition_resumeAt (hfamily : s.disk.families[name]? = some family)
    (haccepted : Accepted family) (hpage : 1 ≤ page) (hplace : place.nodes ≠ [])
    {before behind : List (Bytes × Bytes)} {held : Bytes × Bytes}
    (hlist : recordsIn family partition = before ++ held :: behind) (turns : List Bool)
    (found : Misplaced) :
    ∃ more ≤ behind.length, ∃ found' : Misplaced, found'.records = found.records + more ∧
      more + 1 = (Scan.fill (resumeAt partition page (Store.composedKey held.1)) (held :: behind)
        {} 0).records.length ∧
      ((more = behind.length ∨ more = 0) ∧
          walkPartition {} place name (true :: turns)
            (resumeAt partition page (Store.composedKey held.1)) found s =
            .ok (some (true, found')) s ∨
        ∃ read next rest, behind = read ++ next :: rest ∧ more = read.length + 1 ∧
          walkPartition {} place name (true :: turns)
            (resumeAt partition page (Store.composedKey held.1)) found s =
            walkPartition {} place name turns
              (resumeAt partition page (Store.composedKey next.1)) found' s) := by
  have hsorted := haccepted.pairwise_recordsIn partition
  rw [hlist, List.map_append, List.pairwise_append, List.map_cons, List.pairwise_cons] at hsorted
  obtain ⟨-, ⟨hbehind, -⟩, -⟩ := hsorted
  set range := resumeAt partition page (Store.composedKey held.1) with hrange
  obtain ⟨taken, hle, hfill, -, hsome⟩ := Scan.fill_start range hpage (held :: behind)
  obtain ⟨more, rfl⟩ : ∃ more, taken = more + 1 := ⟨taken - 1, by have := hsome (by simp); omega⟩
  have hmore : more ≤ behind.length := by simpa using hle
  -- the key the turn takes up at is read once more and not counted
  have hskip : walkRecord place range { found } (Scan.read range held) =
      { found, last := some (Store.composedKey held.1) } := if_pos ⟨rfl, rfl⟩
  have hnew : ∀ record ∈ (behind.take more).map (Scan.read range),
      range.hasLower = true → record.key ≠ range.lower := by
    intro record hmem _ heq
    obtain ⟨other, hother, rfl⟩ := List.mem_map.mp hmem
    have hlt := hbehind _ (List.mem_map_of_mem (List.mem_of_mem_take hother))
    change Store.composedKey other.1 = Store.composedKey held.1 at heq
    rw [heq] at hlt
    exact List.lt_irrefl _ hlt
  obtain ⟨hrecords, hlast, hread⟩ := foldl_walkRecord range hplace _ hnew
    { found, last := some (Store.composedKey held.1) }
  have hrun := walkPartition_cons place hfamily turns range found
  rw [scanned_resumeAt haccepted hlist, hfill] at hrun
  dsimp only at hrun
  rw [List.take_succ_cons, List.map_cons, List.foldl_cons, hskip] at hrun
  generalize List.foldl (walkRecord place range) { found, last := some (Store.composedKey held.1) }
    ((behind.take more).map (Scan.read range)) = turn at hrun hrecords hlast hread
  rw [hrun, hfill]
  refine ⟨more, hmore, turn.found, hrecords.trans (by simp [hmore]), by simp [hmore], ?_⟩
  rw [List.isEmpty_map, Bool.false_or] at hread
  rcases Nat.eq_zero_or_pos more with hzero | hpos
  · left
    subst hzero
    rw [hlast, hread]
    simp
  · obtain ⟨read, next, htake, hlength, hsplit⟩ := Scan.exists_take_eq hpos hmore
    have hany : turn.readAny = true := by
      rw [hread, htake]
      simp
    have hkey : turn.last = some (Store.composedKey next.1) := by
      rw [hlast, htake]
      simp [Scan.read]
    rw [hkey, hany]
    dsimp only
    by_cases hend : more = behind.length
    · exact Or.inl ⟨Or.inl hend, if_pos (Or.inl (decide_eq_false (by
        rw [List.length_cons]; omega)))⟩
    · refine Or.inr ⟨read, next, behind.drop more, hsplit, hlength, ?_⟩
      rw [if_neg (by simp; omega)]
      rfl

/-- What the first turn does: it counts the records its page has, and the walk ends where that is
all of them. -/
theorem walkPartition_walkRange (partition : Partition)
    (hfamily : s.disk.families[name]? = some family)
    (haccepted : Accepted family) (hpage : 1 ≤ page) (hplace : place.nodes ≠ []) (turns : List Bool)
    (found : Misplaced) :
    ∃ more ≤ (recordsIn family partition).length, ∃ found' : Misplaced,
      found'.records = found.records + more ∧ more ≤ page ∧
      (more = (recordsIn family partition).length ∧
          walkPartition {} place name (true :: turns) (walkRange partition page) found s =
            .ok (some (true, found')) s ∨
        ∃ read next rest, recordsIn family partition = read ++ next :: rest ∧ rest ≠ [] ∧
          more = read.length + 1 ∧
          walkPartition {} place name (true :: turns) (walkRange partition page) found s =
            walkPartition {} place name turns
              (resumeAt partition page (Store.composedKey next.1)) found' s) := by
  set range := walkRange partition page with hrange
  obtain ⟨more, hmore, hfill, hfits, hsome⟩ :=
    Scan.fill_start range hpage (recordsIn family partition)
  obtain ⟨hrecords, hlast, hread⟩ := foldl_walkRecord range hplace
    (((recordsIn family partition).take more).map (Scan.read range))
    (fun _ _ hlower => by cases hlower) { found }
  have hrun := walkPartition_cons place hfamily turns range found
  rw [scanned_walkRange haccepted, hfill] at hrun
  dsimp only at hrun
  generalize List.foldl (walkRecord place range) { found }
    (((recordsIn family partition).take more).map (Scan.read range)) =
      turn at hrun hrecords hlast hread
  rw [hrun]
  refine ⟨more, hmore, turn.found, hrecords.trans (by simp [hmore]), hfits.1, ?_⟩
  rw [List.isEmpty_map, Bool.false_or] at hread
  rcases Nat.eq_zero_or_pos more with hzero | hpos
  · left
    subst hzero
    have hnil : recordsIn family partition = [] := by
      by_contra hne
      exact absurd (hsome hne) (Nat.lt_irrefl 0)
    rw [hlast, hnil]
    simp
  · obtain ⟨read, next, htake, hlength, hsplit⟩ := Scan.exists_take_eq hpos hmore
    have hany : turn.readAny = true := by
      rw [hread, htake]
      simp
    have hkey : turn.last = some (Store.composedKey next.1) := by
      rw [hlast, htake]
      simp [Scan.read]
    rw [hkey, hany]
    dsimp only
    by_cases hend : more = (recordsIn family partition).length
    · exact Or.inl ⟨hend, if_pos (Or.inl (decide_eq_false (by omega)))⟩
    · refine Or.inr ⟨read, next, _, hsplit, ?_, hlength, ?_⟩
      · rw [Ne, List.drop_eq_nil_iff]
        omega
      · rw [if_neg (by simp; omega)]
        rfl

/-- Keys that a PUT stores are short enough for two of them to share a page. -/
theorem sizeOf_le (page : ℕ) (haccepted : Accepted family) {held : Bytes × Bytes}
    (hmem : held ∈ recordsIn family partition) (key : Bytes) :
    Scan.sizeOf (resumeAt partition page key) held ≤ Record.maxKeySize := by
  obtain ⟨named, record, hparse, hkey, -⟩ := haccepted.of_mem_recordsIn hmem
  have hlength := (Record.exists_parseKey_iff.mp ⟨record, hparse⟩).2
  change held.1.length - 2 + 0 ≤ _
  rw [hkey, Store.storeKey_eq, List.length_cons, List.length_cons]
  omega

/-- **Pages of two records or more are walked to the end**, from whatever record the walk takes
up. -/
theorem walk_resumeAt (hfamily : s.disk.families[name]? = some family)
    (haccepted : Accepted family) (hpage : 2 ≤ page) (hplace : place.nodes ≠ []) (n : ℕ)
    {before behind : List (Bytes × Bytes)} {held : Bytes × Bytes}
    (hlist : recordsIn family partition = before ++ held :: behind) (hn : behind.length ≤ n)
    (found : Misplaced) :
    ∃ found', walkPartition {} place name (List.replicate (n + 1) true)
        (resumeAt partition page (Store.composedKey held.1)) found s = .ok (some (true, found')) s ∧
      found'.records = found.records + behind.length := by
  induction n generalizing before behind held found with
  | zero =>
    obtain rfl : behind = [] := List.eq_nil_of_length_eq_zero (Nat.le_zero.mp hn)
    obtain ⟨more, hmore, found', hrecords, -, ⟨-, hrun⟩ | ⟨read, next, rest, hnil, -⟩⟩ :=
      walkPartition_resumeAt hfamily haccepted (le_trans (by norm_num) hpage) hplace hlist [] found
    · refine ⟨found', hrun, ?_⟩
      rw [hrecords, Nat.le_zero.mp hmore]
      rfl
    · simp at hnil
  | succ n ih =>
    obtain ⟨more, hmore, found', hrecords, hfilled, ⟨hended, hrun⟩ |
        ⟨read, next, rest, hsplit, hlength, hrun⟩⟩ :=
      walkPartition_resumeAt hfamily haccepted (le_trans (by norm_num) hpage) hplace hlist
        (List.replicate (n + 1) true) found
    · refine ⟨found', hrun, ?_⟩
      rcases hended with hall | hnone
      · rw [hrecords, hall]
      · -- a page of two has one more than the record taken up at, where there is one
        cases behind with
        | nil => rw [hrecords, hnone]; rfl
        | cons next rest =>
          have hheld : held ∈ recordsIn family partition := by rw [hlist]; simp
          have hnext : next ∈ recordsIn family partition := by rw [hlist]; simp
          have hsizes := add_le_add
            (sizeOf_le page haccepted hheld (Store.composedKey held.1))
            (sizeOf_le page haccepted hnext (Store.composedKey held.1))
          have htwo := Scan.two_le_length_fill (resumeAt partition page
            (Store.composedKey held.1)) hpage (hsizes.trans (by decide)) rest
          omega
    · rw [hsplit, List.length_append, List.length_cons] at hn
      have hlist' : recordsIn family partition = (before ++ held :: read) ++ next :: rest := by
        rw [hlist, hsplit]
        simp
      obtain ⟨found'', hrun', hrecords'⟩ := ih hlist' (by omega) found'
      refine ⟨found'', (hrun.trans hrun'), ?_⟩
      rw [hrecords', hrecords, hlength, hsplit, List.length_append, List.length_cons]
      omega

/-- The walk of a partition ends and has added to what was found every record the table holds in
it. -/
def SeesAll (s : Store) (name : Bytes) (family : Family) (place : Placement) (partition : Partition)
    (page : ℕ) (found : Misplaced) : Prop :=
  ∃ turns found', walkPartition {} place name (List.replicate turns true)
      (walkRange partition page) found s = .ok (some (true, found')) s ∧
    found'.records = found.records + (recordsIn family partition).length

/-- A page of one record is the record the walk takes up at, so the walk ends there. -/
theorem records_of_page_one (hfamily : s.disk.families[name]? = some family)
    (haccepted : Accepted family) (hplace : place.nodes ≠ []) {turns : ℕ} {found found' : Misplaced}
    {t : Store} (hrun : walkPartition {} place name (List.replicate turns true)
      (walkRange partition 1) found s = .ok (some (true, found')) t) :
    found'.records ≤ found.records + 1 := by
  cases turns with
  | zero => cases hrun
  | succ turns =>
    rw [List.replicate_succ] at hrun
    obtain ⟨more, -, found₁, hrecords, hone, ⟨-, hfirst⟩ |
        ⟨read, next, rest, hlist, -, -, hfirst⟩⟩ :=
      walkPartition_walkRange partition hfamily haccepted le_rfl hplace
        (List.replicate turns true) found
    · rw [hfirst] at hrun
      cases hrun
      omega
    · rw [hfirst] at hrun
      cases turns with
      | zero => cases hrun
      | succ turns =>
        rw [List.replicate_succ] at hrun
        obtain ⟨more', -, found₂, hrecords', hfilled, hsecond⟩ :=
          walkPartition_resumeAt hfamily haccepted le_rfl hplace hlist (List.replicate turns true)
            found₁
        obtain ⟨taken, -, hfill, hfits, -⟩ := Scan.fill_start
          (resumeAt partition 1 (Store.composedKey next.1)) Nat.one_pos (next :: rest)
        have htaken : taken ≤ 1 := hfits.1
        rw [hfill, List.length_map, List.length_take] at hfilled
        obtain rfl : more' = 0 := by omega
        rcases hsecond with ⟨-, hsecond⟩ | ⟨read', next', rest', -, hlength, -⟩
        · rw [hsecond] at hrun
          cases hrun
          omega
        · omega

/-- **The walk sees every misplaced record exactly where its pages have two records or more**, or
where there is no second record to see. -/
theorem walk_sees_all_iff (hfamily : s.disk.families[name]? = some family)
    (haccepted : Accepted family) (hpage : 1 ≤ page) (hplace : place.nodes ≠ [])
    (found : Misplaced) :
    SeesAll s name family place partition page found ↔
      2 ≤ page ∨ (recordsIn family partition).length ≤ 1 := by
  constructor
  · rintro ⟨turns, found', hrun, hrecords⟩
    by_contra hno
    rw [not_or, not_le, not_le] at hno
    obtain rfl : page = 1 := by omega
    have hfew := records_of_page_one hfamily haccepted hplace hrun
    omega
  · intro hcan
    obtain ⟨more, hmore, found₁, hrecords, -, ⟨hall, hfirst⟩ |
        ⟨read, next, rest, hlist, hrest, hlength, hfirst⟩⟩ :=
      walkPartition_walkRange partition hfamily haccepted hpage hplace
        (List.replicate ((recordsIn family partition).length + 1) true) found
    · exact ⟨_ + 2, found₁, hfirst, by rw [hrecords, hall]⟩
    · have hcount : (recordsIn family partition).length = read.length + 1 + rest.length := by
        rw [hlist, List.length_append, List.length_cons]
        omega
      have hbehind : 0 < rest.length := List.length_pos_of_ne_nil hrest
      have htwo : 2 ≤ page := by omega
      obtain ⟨found₂, hlater, hrecords'⟩ := walk_resumeAt hfamily haccepted htwo hplace
        (recordsIn family partition).length hlist (by omega) found₁
      exact ⟨_ + 2, found₂, hfirst.trans hlater, by omega⟩

/-- A table of two records with one partition key. -/
def twoRecords : Family :=
  ((∅ : Family).insert (Store.storeKey (Record.composeKey (ascii "a") (ascii "x")))
    (Record.composeValue ⟨1, 1⟩ [])).insert
    (Store.storeKey (Record.composeKey (ascii "a") (ascii "y"))) (Record.composeValue ⟨1, 2⟩ [])

def storeOfTwo : Store where
  disk := { Disk.fresh with
    families := (∅ : Std.ExtTreeMap Bytes Family).insert (ascii "t") twoRecords }

/-- The partition is another node's. -/
def elsewhere : Placement := { isLocal := false, nodes := [ascii "other"] }

theorem accepted_twoRecords : Accepted twoRecords :=
  (accepted_empty.insert (by decide) _).insert (by decide) _

theorem length_recordsIn_twoRecords :
    (recordsIn twoRecords (partitionOf (ascii "a"))).length = 2 := by
  decide +kernel

theorem walk_sees_all_iff_twoRecords :
    SeesAll storeOfTwo (ascii "t") twoRecords elsewhere (partitionOf (ascii "a")) 2 {} ↔
      2 ≤ 2 ∨ (recordsIn twoRecords (partitionOf (ascii "a"))).length ≤ 1 :=
  walk_sees_all_iff Std.ExtTreeMap.getElem?_insert_self accepted_twoRecords
    (by decide) (by decide) {}

/-- With pages of one record the walk ends before the second. -/
theorem not_seesAll_twoRecords :
    ¬SeesAll storeOfTwo (ascii "t") twoRecords elsewhere (partitionOf (ascii "a")) 1 {} := by
  rintro ⟨turns, found', hrun, hrecords⟩
  have hfew := records_of_page_one Std.ExtTreeMap.getElem?_insert_self accepted_twoRecords
    (by decide) hrun
  rw [hrecords, length_recordsIn_twoRecords] at hfew
  exact absurd hfew (by decide)

end Reconcile

end AsyncDatabase
