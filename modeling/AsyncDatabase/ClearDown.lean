import AsyncDatabase.Library.Run
import AsyncDatabase.Reconcile

/-!
# A clear down with writes landing beside it

The second half of a pass (`reconcile/reconcile.cpp`) as a machine: for each table the walk of
`AsyncDatabase.Reconcile`, a page at a time, then the files of the owners, each read a key at a time
and its deletes applied at the end, with any number of workers at once and writes landing between
any two steps. A file that cannot be cleared is dropped with the rest of its walk, and the pass goes
on to the next owner. What is deferred is the difference of two totals, what the walk found and what
the files cleared. `settled_gave_up` says when a pass that settled gave up everything it found:
where every key that was cleared is one that the walk found and that was not cleared before.
-/

namespace AsyncDatabase

open Bytes (ascii)
open Machine Throwing

namespace Reconcile

/-! ### What a pass says -/

/-- `reconcile::outcome`, without what a read needs of it. -/
structure Outcome where
  fetched : ℕ := 0
  cleared : ℕ := 0
  deferred : ℕ := 0
  finished : Bool := false
  refused : Bool := false

def Outcome.settled (outcome : Outcome) : Bool :=
  outcome.finished && !outcome.refused && outcome.deferred == 0

/-! ### The machine -/

/-- A record of a table, by the name of the table and the key the store holds it under. -/
abbrev Held := Bytes × Bytes

/-- `clear_records` on its way: what of the file is still to be read, and the batch of deletes. -/
structure Clear where
  rest : List Store.Carried
  batch : List Bytes := []

/-- Where a pass stands in the table it clears. -/
inductive ClearStage where
  /-- Before `clear_table`, or after it. -/
  | between
  /-- In `walk_table`, with the partitions it has still to walk. -/
  | walking (found : Misplaced) (left : List Partition)
  /-- In `walk_partition`, before a page. -/
  | paging (found : Misplaced) (left : List Partition) (place : Placement) (range : Scan.Range)
  /-- Past the walk, with the nodes there are still to ask, and whether a file of the one that is
  being asked could not be taken in. -/
  | clearing (found : Misplaced) (shares : List (Bytes × PartitionSet))
    (cleared : ℕ) (finished failed : Bool)
  | thrown

structure ClearDown where
  store : Store
  /-- The tables that are not done with, the one that is being cleared first. -/
  tables : List Bytes
  stage : ClearStage := .between
  /-- The files the workers are reading. -/
  reading : Std.ExtTreeMap ℕ Clear := ∅
  outcome : Outcome
  /-- What the walks found, what was deleted of it, and what was written again after it was
  found. -/
  found : List Held := []
  given : List Held := []
  again : List Held := []

inductive ClearEvent where
  | write (db : Database) (name : Bytes) (record : Record)
  /-- `walk_table` begins, with what the node holds. -/
  | start (held : PartitionSet)
  /-- The walk goes on to the next partition, which is placed so, or is over. -/
  | next (place : Placement)
  /-- A page of the walk, or the end of it where the pass was stopped or ran out of patience. -/
  | page (db : Database) (going : Bool)
  | sent (db : Database) (worker : ℕ) (file : List Store.Carried)
  /-- A worker reads what is held for the next key of its file, or fails to. -/
  | look (worker : ℕ) (reads : Bool)
  | apply (db : Database) (worker : ℕ)
  /-- The walk of a node's share is over: whether it read every piece, and whether it was refused
  one. -/
  | asked (whole refused : Bool)
  | close

namespace ClearDown

/-- The half begins with the tables there are and what the first half came to. -/
def begin (store : Store) (fetched : ℕ) (finished refused : Bool) : ClearDown where
  store
  tables := store.tables.names
  outcome := { fetched, finished, refused }

/-- Whether the record is in the store. -/
def holds (s : ClearDown) (x : Held) : Bool :=
  match s.store.disk.families[x.1]? with
  | none => false
  | some family => x.2 ∈ family

/-- The records of a page that are new to the walk. -/
def newTo (range : Scan.Range) (records : List Record) : List Record :=
  records.filter fun record => !(range.hasLower && record.key == range.lower)

/-- A write lands: where it stands it is remembered, if it is one of a record that was found. -/
def written (s : ClearDown) (db : Database) (name : Bytes) (record : Record) : ClearDown :=
  let result := Store.writeRecord db name record s.store
  let store := after result
  let x : Held := (name, Store.storeKey record.key)
  let held := store.disk.families[name]?.bind (·[x.2]?)
  let stands := !threw result && held == some (Record.composeValue record.stamp record.value)
  { s with store, again := if stands ∧ x ∈ s.found then x :: s.again else s.again }

/-- A page of the walk of a partition. -/
def paged (s : ClearDown) (db : Database) (name : Bytes) (found : Misplaced) (left : List Partition)
    (place : Placement) (range : Scan.Range) : ClearDown :=
  match Store.scanRecords db name range s.store with
  | .error _ _ => { s with stage := .thrown }
  | .ok page _ =>
    let turn := page.records.foldl (walkRecord place range) { found }
    let new := (newTo range page.records).map fun record =>
      (name, Store.partitionPrefix range.partition ++ record.key)
    let stage : ClearStage := match turn.last with
      | none => .walking turn.found left
      | some last =>
        if page.hasMore = false ∨ turn.readAny = false then .walking turn.found left
        else .paging turn.found left place { range with lower := last, hasLower := true }
    { s with stage, found := s.found ++ new }

/-- The walk of a table is over and its owners are asked. -/
def ask (s : ClearDown) (found : Misplaced) : ClearDown :=
  { s with stage := .clearing found found.elsewhere.toList 0 found.finished false }

/-- `take_in`: what `clear_records` throws ends with the file, and the walk begins no other. -/
def dropped (s : ClearDown) (worker : ℕ) (found : Misplaced) (shares : List (Bytes × PartitionSet))
    (cleared : ℕ) (finished : Bool) : ClearDown :=
  { s with
    reading := s.reading.erase worker
    stage := .clearing found shares cleared finished true }

/-- A file is begun. -/
def opened (s : ClearDown) (db : Database) (name : Bytes) (worker : ℕ) (file : List Store.Carried)
    (found : Misplaced) (shares : List (Bytes × PartitionSet)) (cleared : ℕ) (finished : Bool) :
    ClearDown :=
  if file = [] then s
  else
    match s.store.disk.families[name]? with
    | none => s.dropped worker found shares cleared finished
    | some _ =>
      if db.writeScratch = true ∧ db.readFile = .ok then
        { s with reading := s.reading.insert worker { rest := file } }
      else s.dropped worker found shares cleared finished

/-- A key of a file is decided on, against what is held for it then. -/
def looked (s : ClearDown) (name : Bytes) (worker : ℕ) (reads : Bool) (carried : Store.Carried)
    (clear : Clear) : ClearDown :=
  let clears := reads && Store.clears (s.store.disk.families[name]?.getD ∅) carried
  let batch := if clears then clear.batch ++ [carried.1] else clear.batch
  { s with reading := s.reading.insert worker { clear with batch } }

/-- The deletes of a file. -/
def applied (s : ClearDown) (name : Bytes) (worker : ℕ) (batch : List Bytes) (found : Misplaced)
    (shares : List (Bytes × PartitionSet)) (cleared : ℕ) (finished failed : Bool) :
    ClearDown :=
  { s with
    store := s.store.setFamily name (Store.eraseAll (s.store.disk.families[name]?.getD ∅) batch)
    reading := s.reading.erase worker
    given := s.given ++ batch.map (Prod.mk name)
    stage := .clearing found shares (cleared + batch.length) finished failed }

/-- The end of `clear_table`. -/
def closed (s : ClearDown) (found : Misplaced) (cleared : ℕ) (finished : Bool) : ClearDown :=
  { s with
    stage := .between
    tables := s.tables.tail
    outcome := { s.outcome with
      cleared := s.outcome.cleared + cleared
      deferred := s.outcome.deferred +
        (found.orphaned + if found.records > cleared then found.records - cleared else 0)
      finished := s.outcome.finished && finished } }

/-- A step that comes in the wrong stage does nothing. -/
def step (page : ℕ) (s : ClearDown) (e : ClearEvent) : ClearDown :=
  match e, s.stage, s.tables with
  | .write db name record, _, _ => s.written db name record
  | .start held, .between, _ :: _ =>
    { s with stage := .walking {} ((List.finRange partitionCount).filter (· ∉ held)) }
  | .next place, .walking found (partition :: left), _ =>
    { s with stage := .paging found left place (walkRange partition page) }
  | .next _, .walking found [], _ => s.ask { found with finished := true }
  | .page db true, .paging found left place range, name :: _ =>
    s.paged db name found left place range
  | .page _ false, .paging found _ _ _, _ => s.ask found
  | .sent db worker file, .clearing found (share :: shares) cleared finished failed, name :: _ =>
    if worker ∈ s.reading ∨ failed = true then s
    else s.opened db name worker file found (share :: shares) cleared finished
  | .look worker reads, .clearing .., name :: _ =>
    match s.reading[worker]? with
    | some ⟨carried :: rest, batch⟩ => s.looked name worker reads carried ⟨rest, batch⟩
    | _ => s
  | .apply db worker, .clearing found shares cleared finished failed, name :: _ =>
    match s.reading[worker]? with
    | some ⟨[], []⟩ => { s with reading := s.reading.erase worker }
    | some ⟨[], batch⟩ =>
      if db.write = .ok then s.applied name worker batch found shares cleared finished failed
      else s.dropped worker found shares cleared finished
    | _ => s
  | .asked whole refused, .clearing found (_ :: shares) cleared finished failed, _ =>
    if s.reading.isEmpty then
      { s with
        stage := .clearing found shares cleared (finished && (whole && !failed || refused)) false }
    else s
  | .close, .clearing found [] cleared finished _, _ => s.closed found cleared finished
  | _, _, _ => s

/-! ### What is asked of it -/

/-- Every table is done with. -/
def isOver (s : ClearDown) : Bool :=
  match s.stage, s.tables with
  | .between, [] => true
  | _, _ => false

/-- Everything that was found is gone from the store or was written again, once the pass is over and
says that it settled. -/
def GaveUp (s : ClearDown) : Prop :=
  s.isOver = true → s.outcome.settled = true → ∀ x ∈ s.found, s.holds x = false ∨ x ∈ s.again

instance : DecidablePred GaveUp := fun s =>
  inferInstanceAs (Decidable (s.isOver = true → s.outcome.settled = true →
    ∀ x ∈ s.found, s.holds x = false ∨ x ∈ s.again))

/-- The keys a file clears are ones that the walk found, each cleared once. -/
def CountsFound (s : ClearDown) : ClearEvent → Prop
  | .apply _ worker => ∀ name ∈ s.tables.head?, ∀ clear ∈ s.reading[worker]?,
      clear.batch.Nodup ∧ ∀ key ∈ clear.batch, (name, key) ∈ s.found ∧ (name, key) ∉ s.given
  | _ => True

instance (s : ClearDown) : DecidablePred (CountsFound s)
  | .apply _ worker => inferInstanceAs (Decidable (∀ name ∈ s.tables.head?,
      ∀ clear ∈ s.reading[worker]?, clear.batch.Nodup ∧
        ∀ key ∈ clear.batch, (name, key) ∈ s.found ∧ (name, key) ∉ s.given))
  | .write .. | .start .. | .next .. | .page .. | .sent .. | .look .. | .asked .. | .close =>
    inferInstanceAs (Decidable True)

/-! ### What every step keeps -/

/-- How many of these records are of a table. -/
def countIn (records : List Held) (name : Bytes) : ℕ := records.countP fun x => decide (x.1 = name)

/-- The walk of the table that is being cleared has counted what it found. -/
def Walked (s : ClearDown) (found : Misplaced) : Prop :=
  ∀ name ∈ s.tables.head?, countIn s.found name = found.records + found.orphaned

def AtStage (s : ClearDown) : Prop :=
  match s.stage with
  | .between => ∀ x ∈ s.found, x.1 ∉ s.tables
  | .walking found _ => s.Walked found ∧ ∀ name ∈ s.tables.head?, countIn s.given name = 0
  | .paging found _ _ _ => s.Walked found ∧ ∀ name ∈ s.tables.head?, countIn s.given name = 0
  | .clearing found _ cleared _ _ =>
    s.Walked found ∧ ∀ name ∈ s.tables.head?, countIn s.given name = cleared
  | .thrown => True

structure Kept (s : ClearDown) : Prop where
  names : s.tables.Nodup
  within : ∀ x ∈ s.given, x ∈ s.found
  once : s.given.Nodup
  /-- What was deleted is gone but for what was written again. -/
  gone : ∀ x ∈ s.given, s.holds x = true → x ∈ s.again
  /-- Of the tables that are done with, everything was deleted where nothing is deferred. -/
  done : ∀ x ∈ s.found, x.1 ∉ s.tables → s.outcome.deferred = 0 → x ∈ s.given
  /-- Nothing has been found of the tables that are still to come. -/
  later : ∀ x ∈ s.found, x.1 ∉ s.tables.tail
  stage : s.AtStage

variable {s : ClearDown}

/-- A step that changes nothing but where the pass stands. -/
theorem Kept.restaged (h : s.Kept) {stage : ClearStage} (reading : Std.ExtTreeMap ℕ Clear)
    (hstage : ({ s with stage, reading } : ClearDown).AtStage) :
    ({ s with stage, reading } : ClearDown).Kept where
  names := h.names
  within := h.within
  once := h.once
  gone := h.gone
  done := h.done
  later := h.later
  stage := hstage

theorem countIn_append (a b : List Held) (name : Bytes) :
    countIn (a ++ b) name = countIn a name + countIn b name := List.countP_append

/-- Records all of one table are counted in it and in no other. -/
theorem countIn_map (name : Bytes) (keys : List Bytes) :
    countIn (keys.map (Prod.mk name)) name = keys.length := by
  rw [countIn, List.countP_map, List.countP_eq_length.mpr (by simp)]

/-- A page counts the records of it that are new. -/
theorem counted_foldl_walkRecord (place : Placement) (range : Scan.Range) (records : List Record)
    (turn : Turn) :
    let after := records.foldl (walkRecord place range) turn
    after.found.records + after.found.orphaned =
      turn.found.records + turn.found.orphaned + (newTo range records).length := by
  induction records generalizing turn with
  | nil => rfl
  | cons record records ih =>
    dsimp only
    rw [List.foldl_cons, ih]
    by_cases hold : range.hasLower = true ∧ record.key = range.lower
    · have hskip : newTo range (record :: records) = newTo range records := by
        rw [newTo, List.filter_cons_of_neg (by simp [hold.1, hold.2])]
        rfl
      rw [walkRecord, if_pos hold, hskip]
    · have hnew : newTo range (record :: records) = record :: newTo range records := by
        rw [newTo, List.filter_cons_of_pos]
        · rfl
        · cases hlower : range.hasLower with
          | true => simpa [hlower] using hold
          | false => rfl
      rw [walkRecord, if_neg hold, hnew, misplace, List.length_cons]
      cases place.nodes with
      | nil =>
        dsimp only
        omega
      | cons node nodes =>
        dsimp only
        omega

/-- A record that is there after a write was there before, or it is the one written and the write is
remembered. -/
theorem holds_written {db : Database} {name : Bytes} {record : Record} {x : Held}
    (h : (s.written db name record).holds x = true) (hfound : x ∈ s.found) :
    s.holds x = true ∨ x ∈ (s.written db name record).again := by
  rcases Store.writeRecord_cases db name record s.store with
    ⟨e, hrun⟩ | ⟨family, hfamily, ⟨-, hrun⟩ | ⟨-, hrun⟩⟩
  · left
    rwa [holds, written, hrun] at h
  · left
    rwa [holds, written, hrun] at h
  · by_cases hx : x = (name, Store.storeKey record.key)
    · right
      have hstands : (s.store.written name family record).disk.families[name]?.bind
          (·[Store.storeKey record.key]?) =
            some (Record.composeValue record.stamp record.value) := by
        rw [Store.families_written, Std.ExtTreeMap.getElem?_insert_self, Option.bind_some,
          Std.ExtTreeMap.getElem?_insert_self]
      rw [written, hrun]
      dsimp only
      rw [after_ok, hstands, threw_ok, if_pos ⟨by simp, hx ▸ hfound⟩, hx]
      exact List.mem_cons_self
    · left
      rw [holds, written, hrun, after_ok, Store.families_written,
        Std.ExtTreeMap.getElem?_insert] at h
      rw [holds]
      by_cases hname : name = x.1
      · rw [if_pos (by simp [hname])] at h
        rw [← hname, hfamily]
        have hkey : Store.storeKey record.key ≠ x.2 := fun hkey => hx (by rw [hname, hkey])
        simpa [Std.ExtTreeMap.mem_insert, hkey] using h
      · rwa [if_neg (by simpa using hname)] at h

theorem Kept.written (h : s.Kept) (db : Database) (name : Bytes) (record : Record) :
    (s.written db name record).Kept where
  names := h.names
  within := h.within
  once := h.once
  gone x hx hholds := by
    rcases holds_written hholds (h.within x hx) with hheld | hagain
    · unfold ClearDown.written
      dsimp only
      split_ifs
      · exact List.mem_cons_of_mem _ (h.gone x hx hheld)
      · exact h.gone x hx hheld
    · exact hagain
  done := h.done
  later := h.later
  stage := h.stage

/-- The walk of a table begins: nothing was found of it yet. -/
theorem Kept.started (h : s.Kept) (hstage : s.stage = .between) (left : List Partition) :
    ({ s with stage := .walking {} left } : ClearDown).Kept := by
  have hnone : ∀ x ∈ s.found, x.1 ∉ s.tables := by
    have hat := h.stage
    rwa [AtStage, hstage] at hat
  have hcount : ∀ records : List Held, (∀ x ∈ records, x ∈ s.found) →
      ∀ name ∈ s.tables.head?, countIn records name = 0 := by
    intro records hrecords name hname
    refine List.countP_eq_zero.mpr fun x hx heq => hnone x (hrecords x hx) ?_
    rw [of_decide_eq_true heq]
    exact List.mem_of_mem_head? hname
  exact h.restaged s.reading ⟨hcount s.found fun _ hx => hx, hcount s.given h.within⟩

/-- A page is counted as it is found. -/
theorem Kept.paged (h : s.Kept) {name : Bytes} {tables : List Bytes}
    (htables : s.tables = name :: tables)
    {found : Misplaced} {left : List Partition} {place : Placement} {range : Scan.Range}
    (hstage : s.stage = .paging found left place range) (db : Database) :
    (s.paged db name found left place range).Kept := by
  have hat := h.stage
  rw [AtStage, hstage] at hat
  obtain ⟨hwalked, hnone⟩ := hat
  have hhead : name ∈ s.tables.head? := by
    rw [htables]
    rfl
  unfold ClearDown.paged
  cases Store.scanRecords db name range s.store with
  | error e t => exact h.restaged s.reading trivial
  -- what the page adds to what was found is what it adds to the count
  | ok page t =>
    dsimp only
    have hcounted := counted_foldl_walkRecord place range page.records { found }
    dsimp only at hcounted
    set turn := page.records.foldl (walkRecord place range) { found } with hturn
    set new : List Held := (newTo range page.records).map fun record =>
      (name, Store.partitionPrefix range.partition ++ record.key) with hnew
    have hname : ∀ x ∈ new, x.1 = name := by
      intro x hx
      obtain ⟨record, -, rfl⟩ := List.mem_map.mp hx
      rfl
    have hall : countIn (s.found ++ new) name = turn.found.records + turn.found.orphaned := by
      have hlength : countIn new name = (newTo range page.records).length := by
        rw [countIn, List.countP_eq_length.mpr fun x hx => decide_eq_true (hname x hx), hnew,
          List.length_map]
      rw [countIn_append, hwalked name hhead, hlength, hcounted]
    have hnow : ∀ other ∈ s.tables.head?,
        countIn (s.found ++ new) other = turn.found.records + turn.found.orphaned := by
      intro other hother
      obtain rfl : name = other := by
        rw [htables] at hother
        exact Option.some.inj hother
      exact hall
    refine
      { names := h.names
        within := fun x hx => List.mem_append_left _ (h.within x hx)
        once := h.once
        gone := h.gone
        done := fun x hx htable hdeferred => ?_
        later := fun x hx => ?_
        stage := ?_ }
    · -- the tables before this one are as they were
      rcases List.mem_append.mp hx with hold | hpage
      · exact h.done x hold htable hdeferred
      · exact absurd (hname x hpage ▸ List.mem_of_mem_head? hhead) htable
    · rcases List.mem_append.mp hx with hold | hpage
      · exact h.later x hold
      · rw [hname x hpage, htables, List.tail_cons]
        have hnodup := h.names
        rw [htables] at hnodup
        exact (List.nodup_cons.mp hnodup).1
    · rw [AtStage]
      dsimp only
      -- a page that was the last, one that another follows, or one of a partition that is done
      cases turn.last with
      | none => exact ⟨hnow, hnone⟩
      | some last =>
        dsimp only
        split_ifs
        · exact ⟨hnow, hnone⟩
        · exact ⟨hnow, hnone⟩

/-- The owners are asked with nothing cleared yet. -/
theorem Kept.ask (h : s.Kept) {found : Misplaced} (hwalked : s.Walked found)
    (hnone : ∀ name ∈ s.tables.head?, countIn s.given name = 0) : (s.ask found).Kept :=
  h.restaged s.reading ⟨hwalked, hnone⟩

/-- A file that is dropped takes nothing of the counts. -/
theorem Kept.dropped (h : s.Kept) {found : Misplaced} {shares : List (Bytes × PartitionSet)}
    {cleared : ℕ} {finished failed : Bool}
    (hstage : s.stage = .clearing found shares cleared finished failed) (worker : ℕ) :
    (s.dropped worker found shares cleared finished).Kept := by
  have hat := h.stage
  rw [AtStage, hstage] at hat
  exact h.restaged _ hat

theorem Kept.opened (h : s.Kept) {found : Misplaced} {shares : List (Bytes × PartitionSet)}
    {cleared : ℕ} {finished failed : Bool}
    (hstage : s.stage = .clearing found shares cleared finished failed) (db : Database)
    (name : Bytes) (worker : ℕ) (file : List Store.Carried) :
    (s.opened db name worker file found shares cleared finished).Kept := by
  unfold ClearDown.opened
  by_cases hfile : file = []
  · rwa [if_pos hfile]
  rw [if_neg hfile]
  cases s.store.disk.families[name]? with
  | none => exact h.dropped hstage worker
  | some family =>
    dsimp only
    split_ifs
    · exact h.restaged _ h.stage
    · exact h.dropped hstage worker

/-- What is held after the deletes of a file was held before and is none of them: what the batch
deletes is of one table, and goes. -/
theorem holds_of_applied {name : Bytes} {worker : ℕ} {batch : List Bytes} {found : Misplaced}
    {shares : List (Bytes × PartitionSet)} {cleared : ℕ} {finished failed : Bool}
    {x : Held}
    (hholds : (s.applied name worker batch found shares cleared finished failed).holds x = true) :
    s.holds x = true ∧ x ∉ batch.map (Prod.mk name) := by
  rw [holds, ClearDown.applied, Store.setFamily, Std.ExtTreeMap.getElem?_insert] at hholds
  by_cases hname : name = x.1
  · rw [if_pos (by simp [hname])] at hholds
    have hmem : x.2 ∈ Store.eraseAll (s.store.disk.families[name]?.getD ∅) batch := by
      simpa using hholds
    rw [← Std.ExtTreeMap.isSome_getElem?_iff_mem, Store.getElem?_eraseAll] at hmem
    split_ifs at hmem with hdeleted
    · cases hmem
    · refine ⟨?_, fun hx' => ?_⟩
      · rw [holds, ← hname]
        cases hfamily : s.store.disk.families[name]? with
        | none =>
          rw [hfamily] at hmem
          simp at hmem
        | some family =>
          rw [hfamily, Option.getD_some, Std.ExtTreeMap.isSome_getElem?_iff_mem] at hmem
          exact decide_eq_true hmem
      · obtain ⟨key, hkey, heq⟩ := List.mem_map.mp hx'
        exact hdeleted (by rw [← heq]; exact hkey)
  · -- another table is left alone
    rw [if_neg (by simpa using hname)] at hholds
    refine ⟨hholds, fun hx' => ?_⟩
    obtain ⟨key, -, heq⟩ := List.mem_map.mp hx'
    exact hname (by rw [← heq])

/-- **The deletes of a file**: as many are counted as records are given up, where it clears what was
found and was not cleared before. -/
theorem Kept.applied (h : s.Kept) {name : Bytes} {tables : List Bytes}
    (htables : s.tables = name :: tables) {found : Misplaced} {shares : List (Bytes × PartitionSet)}
    {cleared : ℕ} {finished failed : Bool}
    (hstage : s.stage = .clearing found shares cleared finished failed)
    {worker : ℕ} {batch : List Bytes} (hnodup : batch.Nodup)
    (hbatch : ∀ key ∈ batch, (name, key) ∈ s.found ∧ (name, key) ∉ s.given) :
    (s.applied name worker batch found shares cleared finished failed).Kept := by
  have hat := h.stage
  rw [AtStage, hstage] at hat
  obtain ⟨hwalked, hcleared⟩ := hat
  -- what the batch deletes was found and was not given up before
  have hin : ∀ x ∈ batch.map (Prod.mk name), x ∈ s.found ∧ x ∉ s.given := by
    intro x hx
    obtain ⟨key, hkey, rfl⟩ := List.mem_map.mp hx
    exact hbatch key hkey
  refine
    { names := h.names
      within := fun x hx => ?_
      once := ?_
      gone := fun x hx hholds => ?_
      done := fun x hx htable hdeferred => List.mem_append_left _ (h.done x hx htable hdeferred)
      later := h.later
      stage := ⟨hwalked, fun other hother => ?_⟩ }
  · rcases List.mem_append.mp hx with hold | hnew
    · exact h.within x hold
    · exact (hin x hnew).1
  · refine List.nodup_append.mpr ⟨h.once, hnodup.map (Prod.mk_right_injective name), ?_⟩
    intro x hx y hy heq
    exact (hin y hy).2 (heq ▸ hx)
  · obtain ⟨hbefore, hout⟩ := holds_of_applied hholds
    rcases List.mem_append.mp hx with hold | hnew
    · exact h.gone x hold hbefore
    · exact absurd hnew hout
  · -- what the batch deletes is what it adds to the count
    obtain rfl : name = other := by
      have hhead : other ∈ s.tables.head? := hother
      rw [htables] at hhead
      exact Option.some.inj hhead
    have hbefore : countIn s.given name = cleared := hcleared name (by rw [htables]; rfl)
    change countIn (s.given ++ batch.map (Prod.mk name)) name = cleared + batch.length
    rw [countIn_append, countIn_map, hbefore]

theorem mem_head?_of_notMem_tail {name : Bytes} {tables : List Bytes} (hmem : name ∈ tables)
    (htail : name ∉ tables.tail) : name ∈ tables.head? := by
  cases tables with
  | nil => cases hmem
  | cons first tables =>
    rcases List.mem_cons.mp hmem with rfl | hlater
    · rfl
    · exact absurd hlater htail

/-- What was given up of a table, each record once, is all that was found of it where it is as
much. -/
theorem mem_of_countIn_le {found given : List Held} (honce : given.Nodup)
    (hwithin : given ⊆ found) {x : Held} (hx : x ∈ found)
    (hle : countIn found x.1 ≤ countIn given x.1) : x ∈ given := by
  have hsub : given.filter (fun y => decide (y.1 = x.1)) ⊆
      found.filter fun y => decide (y.1 = x.1) := by
    intro y hy
    obtain ⟨hy, hname⟩ := List.mem_filter.mp hy
    exact List.mem_filter.mpr ⟨hwithin hy, hname⟩
  have hperm := (List.subperm_of_subset (honce.filter _) hsub).perm_of_length_le (by
    rwa [← List.countP_eq_length_filter, ← List.countP_eq_length_filter])
  have hxin : x ∈ found.filter fun y => decide (y.1 = x.1) :=
    List.mem_filter.mpr ⟨hx, decide_eq_true rfl⟩
  exact (List.mem_filter.mp (hperm.mem_iff.mpr hxin)).1

/-- **A table is done with**: where nothing of it is deferred as much was cleared as was found, and
so all of it. -/
theorem Kept.closed (h : s.Kept) {found : Misplaced} {shares : List (Bytes × PartitionSet)}
    {cleared : ℕ} {finished failed : Bool}
    (hstage : s.stage = .clearing found shares cleared finished failed) :
    (s.closed found cleared finished).Kept := by
  have hat := h.stage
  rw [AtStage, hstage] at hat
  obtain ⟨hwalked, hcleared⟩ := hat
  refine
    { names := h.names.sublist (List.tail_sublist _)
      within := h.within
      once := h.once
      gone := h.gone
      done := fun x hx htable hdeferred => ?_
      later := fun x hx hmem => h.later x hx (List.mem_of_mem_tail hmem)
      stage := h.later }
  change s.outcome.deferred + (found.orphaned +
    if found.records > cleared then found.records - cleared else 0) = 0 at hdeferred
  have hnone : s.outcome.deferred = 0 ∧ found.records + found.orphaned ≤ cleared := by
    split_ifs at hdeferred
    · omega
    · omega
  by_cases hbefore : x.1 ∈ s.tables
  · have hhead := mem_head?_of_notMem_tail hbefore htable
    have hfound : countIn s.found x.1 = found.records + found.orphaned := hwalked x.1 hhead
    have hgiven : countIn s.given x.1 = cleared := hcleared x.1 hhead
    exact mem_of_countIn_le h.once h.within hx (by rw [hfound, hgiven]; exact hnone.2)
  · exact h.done x hx hbefore hnone.1

/-- **Every step keeps the counts**, where a file clears what was found and not cleared before. -/
theorem Kept.step (h : s.Kept) (page : ℕ) {e : ClearEvent} (hcounts : s.CountsFound e) :
    (s.step page e).Kept := by
  have hat := h.stage
  rw [AtStage] at hat
  unfold ClearDown.step
  split
  case h_1 db name record => exact h.written db name record
  case h_2 held name tables hstage htables => exact h.started hstage _
  case h_3 place found partition left hstage =>
    rw [hstage] at hat
    exact h.restaged s.reading hat
  case h_4 place found hstage =>
    rw [hstage] at hat
    exact h.ask hat.1 hat.2
  case h_5 db found left place range name tables hstage htables =>
    exact h.paged htables hstage db
  case h_6 db found left place range hstage =>
    rw [hstage] at hat
    exact h.ask hat.1 hat.2
  case h_7 db worker file found share shares cleared finished failed name tables hstage htables =>
    split_ifs
    · exact h
    · exact h.opened hstage db name worker file
  case h_8 worker reads found shares cleared finished failed name tables hstage htables =>
    split
    · exact h.restaged _ h.stage
    · exact h
  case h_9 db worker found shares cleared finished failed name tables hstage htables =>
    split
    case h_1 hclear => exact h.restaged _ h.stage
    case h_2 batch _ hclear =>
      split_ifs
      · obtain ⟨hnodup, hbatch⟩ := hcounts name (by rw [htables]; rfl) ⟨[], batch⟩ hclear
        exact h.applied htables hstage hnodup hbatch
      · -- the batch threw
        exact h.dropped hstage worker
    case h_3 => exact h
  case h_10 whole refused found share shares cleared finished failed hstage =>
    rw [hstage] at hat
    split_ifs
    · exact h.restaged s.reading hat
    · exact h
  case h_11 found cleared finished failed hstage => exact h.closed hstage
  case h_12 => exact h

theorem kept_begin (store : Store) (fetched : ℕ) (finished refused : Bool) :
    (begin store fetched finished refused).Kept where
  names := store.tables.nodup_names
  within x hx := by cases hx
  once := List.nodup_nil
  gone x hx := by cases hx
  done x hx := by cases hx
  later x hx := by cases hx
  stage x hx := by cases hx

/-- A pass that is over and settled has everything it found given up. -/
theorem Kept.gaveUp (h : s.Kept) : s.GaveUp := by
  intro hover hsettled x hx
  have htables : s.tables = [] := by
    unfold isOver at hover
    split at hover
    · assumption
    · cases hover
  have hdeferred : s.outcome.deferred = 0 := by
    rw [Outcome.settled, Bool.and_eq_true, beq_iff_eq] at hsettled
    exact hsettled.2
  have hgiven : x ∈ s.given := h.done x hx (by rw [htables]; exact List.not_mem_nil) hdeferred
  cases hholds : s.holds x with
  | false => exact Or.inl rfl
  | true => exact Or.inr (h.gone x hgiven hholds)

/-- **A settled pass gave up everything it found**, whatever the owners answered, whatever was
written while it ran and whatever call failed, in every run whose files clear what the walk found
and what no file cleared before. -/
theorem settled_gave_up (page : ℕ) (store : Store) (fetched : ℕ) (finished refused : Bool)
    (es : List ClearEvent)
    (h : Throughout (step page) CountsFound (begin store fetched finished refused) es) :
    Always (step page) GaveUp (begin store fetched finished refused) es := by
  have hkept : Always (step page) Kept (begin store fetched finished refused) es :=
    Throughout.always (fun _ _ hs hcounts => hs.step page hcounts)
      (kept_begin store fetched finished refused) h
  exact hkept.mono fun _ hs => hs.gaveUp

/-- A table of one record. -/
def storeOfOne : Store where
  disk := { Disk.fresh with
    families := (∅ : Std.ExtTreeMap Bytes Family).insert (ascii "t")
      ((∅ : Family).insert (Store.storeKey (Record.composeKey (ascii "a") (ascii "x")))
        (Record.composeValue ⟨1, 1⟩ [])) }
  tables := (∅ : Schema).create ⟨ascii "t", []⟩ ⟨1, 1⟩

/-- The record is found, and then another is written beside it. -/
def foundOne : List ClearEvent :=
  [.start (Finset.univ.erase (partitionOf (ascii "a"))), .next elsewhere,
    .page {} true, .next elsewhere,
    .write {} (ascii "t") ⟨Record.composeKey (ascii "a") (ascii "y"), [], ⟨1, 2⟩⟩]

/-- The owner answers with a file of one key, and the pass is over. -/
def answered (file : Store.Carried) : List ClearEvent :=
  [.sent {} 0 [file], .look 0 true, .apply {} 0, .asked true false, .close]

/-- The owner has the record that was found. -/
def ofFound : Store.Carried :=
  (Store.storeKey (Record.composeKey (ascii "a") (ascii "x")), Record.composeValue ⟨1, 1⟩ [])

/-- The owner has the record that was written since, and not the one that was found. -/
def ofWritten : Store.Carried :=
  (Store.storeKey (Record.composeKey (ascii "a") (ascii "y")), Record.composeValue ⟨1, 2⟩ [])

/-- The owner has the record that was found, a file behind that one could not be put down, and then
the owner answered no more. -/
def answeredInPart : List ClearEvent :=
  [.sent {} 0 [ofFound], .look 0 true, .apply {} 0,
    .sent { writeScratch := false } 1 [ofWritten], .asked false true, .close]

theorem settled_gave_up_ofFound :
    (run (step 100) (begin storeOfOne 0 true false) (foundOne ++ answeredInPart)).outcome.settled
        = true ∧
      Always (step 100) GaveUp (begin storeOfOne 0 true false) (foundOne ++ answeredInPart) :=
  ⟨by decide +kernel, settled_gave_up 100 storeOfOne 0 true false _ (by decide +kernel)⟩

/-- The clearing of a record the walk did not see counts for the one it saw, which stays. -/
theorem not_gaveUp_ofWritten :
    (run (step 100) (begin storeOfOne 0 true false)
      (foundOne ++ answered ofWritten)).outcome.settled
        = true ∧
      ¬Always (step 100) GaveUp (begin storeOfOne 0 true false)
        (foundOne ++ answered ofWritten) := by
  decide +kernel

end ClearDown

end Reconcile

end AsyncDatabase
