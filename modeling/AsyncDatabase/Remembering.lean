import AsyncDatabase.Library.Run
import AsyncDatabase.Repository.Calls
import AsyncDatabase.Restart

/-!
# The terms a store remembers

Writes and imports by any number of threads, taken apart into their steps: the reading of a term
that no lock is held for, the reading of it again under `term_mutex`, each durable write, each term
in memory. A process may end between any two of them, and the next one opens the store that is left
(`TermRun.step`). What two writes of one key lock each other out of is left out, so there are more
runs here than there can be. `remembered` says that no record is ever on disk in a term the store
does not remember.
-/

namespace AsyncDatabase

open Bytes (ascii)
open Machine Throwing

/-! ### The machine -/

/-- Where a thread is in `write_record` or in `import_records`. -/
inductive TermStage where
  /-- The `Get` of what is held for the key. -/
  | reading (name : Bytes) (record : Record)
  /-- `term <= terms[partition].load()`, with no lock. -/
  | comparing (name : Bytes) (record : Record)
  /-- The `Put` of the record alone. -/
  | putting (name : Bytes) (record : Record)
  | waiting (name : Bytes) (record : Record)
  /-- `term > terms[partition].load()`, with the mutex. -/
  | rechecking (name : Bytes) (record : Record)
  /-- The `Write` of the record, and of its term where that is raised. -/
  | batching (name : Bytes) (record : Record) (raised : Bool)
  /-- `terms[partition] = term`. -/
  | storing (name : Bytes) (record : Record)
  /-- The first walk of a file: what is left of it, the terms it carried so far, how many of its
  records are taken and for how many keys something is held. -/
  | walking (name : Bytes) (file rest : List Store.Carried) (carried : PartitionTerms)
    (records held : ℕ)
  | queueing (name : Bytes) (file : List Store.Carried) (carried :
    PartitionTerms) (records held : ℕ)
  /-- The loop that puts the terms to raise into a batch, with the mutex. -/
  | collecting (name : Bytes) (file : List Store.Carried) (carried :
    PartitionTerms) (records held : ℕ)
  /-- The `Write` of the terms. -/
  | landing (name : Bytes) (file : List Store.Carried) (carried : PartitionTerms)
    (batch : PartitionSet) (records held : ℕ)
  /-- The loop over the terms in memory. -/
  | spreading (name : Bytes) (file : List Store.Carried) (raised : PartitionTerms)
    (left : List Partition) (records held : ℕ)
  /-- The second walk of a file: what is left of it and what is kept. -/
  | sifting (name : Bytes) (rest kept : List Store.Carried)
  /-- The ingesting of a file. -/
  | ingesting (name : Bytes) (kept : List Store.Carried)

/-- A store with the threads that write to it. -/
structure TermRun where
  store : Store
  threads : Std.ExtTreeMap ℕ TermStage := ∅
  /-- The thread that holds `term_mutex`. -/
  holder : Option ℕ := none

/-- What happens to a store. What changes the tables holds everybody else out of it. -/
inductive TermEvent where
  | create (db : Database) (table : Table) (stamp : Version)
  | delete (db : Database) (name : Bytes) (stamp : Version)
  | merge (db : Database) (named : Schema)
  /-- A thread calls `write_record`, with a stamp of a signed and an unsigned number of 64 bits. -/
  | write (thread : ℕ) (name : Bytes) (record : Record) (fits : record.stamp.Fits)
  | imports (thread : ℕ) (name : Bytes) (file : List Store.Carried)
  /-- A thread takes its next step, and the call it makes of the database, if it makes one, goes
  through or fails and does nothing. -/
  | go (thread : ℕ) (ok : Bool)
  /-- The process ends, and the next one opens the store. -/
  | stop

namespace TermRun

variable (J : JsonCodec)

def family (s : TermRun) (name : Bytes) : Family := s.store.disk.families[name]?.getD ∅

/-- A thread comes to a stage. -/
def comes (s : TermRun) (thread : ℕ) (stage : TermStage) : TermRun :=
  { s with threads := s.threads.insert thread stage }

/-- A thread is done, or throws. -/
def leaves (s : TermRun) (thread : ℕ) : TermRun := { s with threads := s.threads.erase thread }

def withStore (s : TermRun) (store : Store) : TermRun := { s with store }

def locked (s : TermRun) (thread : ℕ) : TermRun := { s with holder := some thread }

def unlocked (s : TermRun) : TermRun := { s with holder := none }

/-- The store with a record put into a table of it. -/
def put (s : TermRun) (name : Bytes) (record : Record) : Store :=
  s.store.setFamily name ((s.family name).insert (Store.storeKey record.key)
    (Record.composeValue record.stamp record.value))

/-- An import goes on once its terms are raised. -/
def raised (s : TermRun) (thread : ℕ) (name : Bytes)
    (file : List Store.Carried) (records held : ℕ) : TermRun :=
  if records = 0 then s.leaves thread
  else if held = 0 then s.comes thread (.ingesting name file)
  else s.comes thread (.sifting name file [])

/-- The next step of a thread. -/
def advance (s : TermRun) (thread : ℕ) (ok : Bool) : TermStage → TermRun
  | .reading name record =>
    let value := Record.composeValue record.stamp record.value
    if ok = false ∨ (s.family name)[Store.storeKey record.key]?.any (Record.isNewer · value) =
      true then
      s.leaves thread
    else s.comes thread (.comparing name record)
  | .comparing name record =>
    if record.stamp.term ≤ s.store.terms (partitionOf record.key) then
      s.comes thread (.putting name record)
    else s.comes thread (.waiting name record)
  | .putting name record => (if ok then s.withStore (s.put name record) else s).leaves thread
  | .waiting name record =>
    if s.holder = none then (s.locked thread).comes thread (.rechecking name record) else s
  | .rechecking name record =>
    s.comes thread
      (.batching name record (s.store.terms (partitionOf record.key) < record.stamp.term))
  | .batching name record true =>
    if ok then
      let store := s.put name record
      let terms := Function.update store.disk.terms (partitionOf record.key)
        (some record.stamp.term)
      (s.withStore { store with disk := { store.disk with terms } }).comes thread
        (.storing name record)
    else s.unlocked.leaves thread
  | .batching name record false =>
    (if ok then s.withStore (s.put name record) else s).unlocked.leaves thread
  | .storing _ record =>
    let terms := Function.update s.store.terms (partitionOf record.key) record.stamp.term
    (s.withStore { s.store with terms }).unlocked.leaves thread
  | .walking name file (next :: rest) carried records held =>
    s.comes thread (.walking name file rest (Store.carryTerm carried next)
      (if !ok || Store.takes (s.family name) next then records + 1 else records)
      (if ok && decide (next.1 ∈ s.family name) then held + 1 else held))
  | .walking name file [] carried records held =>
    s.comes thread (.queueing name file carried records held)
  | .queueing name file carried records held =>
    if s.holder = none then
      (s.locked thread).comes thread (.collecting name file carried records held)
    else s
  | .collecting name file carried records held =>
    if ∀ partition, carried partition ≤ s.store.terms partition then
      s.unlocked.raised thread name file records held
    else
      s.comes thread (.landing name file carried
        (Finset.univ.filter fun partition =>
          s.store.terms partition < carried partition) records held)
  | .landing name file carried batch records held =>
    if ok then
      let terms := fun partition =>
        if partition ∈ batch then some (carried partition) else s.store.disk.terms partition
      (s.withStore { s.store with disk := { s.store.disk with terms } }).comes thread
        (.spreading name file (fun partition => if partition ∈ batch then carried partition else 0)
          (List.finRange partitionCount) records held)
    else s.unlocked.leaves thread
  | .spreading name file raised (partition :: left) records held =>
    let terms := if 0 < raised partition
      then Function.update s.store.terms partition (raised partition) else s.store.terms
    (s.withStore { s.store with terms }).comes thread
      (.spreading name file raised left records held)
  | .spreading name file _ [] records held => s.unlocked.raised thread name file records held
  | .sifting name (next :: rest) kept =>
    s.comes thread (.sifting name rest
      (if !ok || Store.takes (s.family name) next then kept ++ [next] else kept))
  | .sifting name [] kept =>
    if kept = [] then s.leaves thread else s.comes thread (.ingesting name kept)
  | .ingesting name kept =>
    (if ok then s.withStore (s.store.setFamily name (Store.ingest (s.family name) kept))
      else s).leaves thread

def step (s : TermRun) : TermEvent → TermRun
  | .create db table stamp =>
    if s.threads.isEmpty then s.withStore
      (after (Store.createTable J db table stamp s.store)) else s
  | .delete db name stamp =>
    if s.threads.isEmpty then s.withStore (after (Store.deleteTable J db name stamp s.store)) else s
  | .merge db named =>
    if s.threads.isEmpty then s.withStore (after (Store.mergeSchema J db named s.store)) else s
  | .write thread name record _ =>
    if thread ∉ s.threads ∧ name ∈ s.store.disk.families then s.comes thread (.reading name record)
    else s
  | .imports thread name file =>
    if thread ∉ s.threads ∧ name ∈ s.store.disk.families ∧ file ≠ [] then
      s.comes thread (.walking name file file (fun _ => 0) 0 0)
    else s
  | .go thread ok =>
    match s.threads[thread]? with
    | none => s
    | some stage => s.advance thread ok stage
  | .stop => { store := after (Store.openStore J {} s.store.disk) }

/-- A store in a directory nothing was written into. -/
def start : TermRun where store := after (Store.openStore J {} Disk.fresh)

/-! ### What a store remembers -/

end TermRun

namespace Store

/-- The term on disk. -/
def durable (s : Store) (partition : Partition) : ℤ := (s.disk.terms partition).getD 0

/-- The records are of no newer terms than those on disk. -/
def Covers (s : Store) (records : List Carried) : Prop :=
  ∀ carried ∈ records, ∀ partition : Partition, partitionHeld carried.1 = partition →
    (Record.versionOf carried.2).term ≤ s.durable partition

/-- No record is in a term that is past the one on disk, and no term in memory is. -/
structure Remembers (s : Store) : Prop where
  records : ∀ (name : Bytes) (family : Family) (key value : Bytes) (partition : Partition),
    s.disk.families[name]? = some family → family[key]? = some value →
      partitionHeld key = partition →
    (Record.versionOf value).term ≤ s.durable partition
  memory : ∀ partition, s.terms partition ≤ s.durable partition
  nonneg : ∀ partition, 0 ≤ s.terms partition

variable {s t : Store}

theorem Covers.mono {records : List Carried} (h : s.Covers records)
    (hle : ∀ partition, s.durable partition ≤ t.durable partition) : t.Covers records :=
  fun carried hmem partition hheld => (h carried hmem partition hheld).trans (hle partition)

theorem Covers.subset {records other : List Carried} (h : s.Covers records)
    (hsub : other ⊆ records) : s.Covers other := fun carried hmem => h carried (hsub hmem)

/-- Terms that only rise keep what is remembered. -/
theorem Remembers.rise (h : s.Remembers) (hfamilies : t.disk.families = s.disk.families)
    (hle : ∀ partition, s.durable partition ≤ t.durable partition)
    (hmemory : ∀ partition, t.terms partition ≤ t.durable partition)
    (hnonneg : ∀ partition, 0 ≤ t.terms partition) : t.Remembers where
  records name family key value partition hfamily hvalue hheld := by
    rw [hfamilies] at hfamily
    exact (h.records name family key value partition hfamily hvalue hheld).trans (hle partition)
  memory := hmemory
  nonneg := hnonneg

/-- A file whose records are covered may be ingested. -/
theorem Remembers.ingest (h : s.Remembers) {name : Bytes} {file : List Carried}
    (hfile : s.Covers file) :
    (s.setFamily name (ingest (s.disk.families[name]?.getD ∅) file)).Remembers where
  records other family key value partition hfamily hvalue hheld := by
    change (s.disk.families.insert name _)[other]? = some family at hfamily
    rw [Std.ExtTreeMap.getElem?_insert] at hfamily
    split_ifs at hfamily with hname
    · rw [← Option.some.inj hfamily] at hvalue
      rcases mem_of_getElem?_ingest hvalue with hmem | hbefore
      · exact hfile _ hmem partition hheld
      · cases hold : s.disk.families[name]? with
        | none =>
          rw [hold] at hbefore
          simp at hbefore
        | some before =>
          rw [hold] at hbefore
          exact h.records name before key value partition hold hbefore hheld
    · exact h.records other family key value partition hfamily hvalue hheld
  memory := h.memory
  nonneg := h.nonneg

/-- What is made or dropped of the tables keeps what is remembered. -/
theorem steady_remembers : Steady Remembers where
  setFamily {s} h name := by
    refine ⟨fun other family key value partition hfamily hvalue hheld => ?_, h.memory, h.nonneg⟩
    change (s.disk.families.insert name ∅)[other]? = some family at hfamily
    rw [Std.ExtTreeMap.getElem?_insert] at hfamily
    split_ifs at hfamily
    · rw [← Option.some.inj hfamily] at hvalue
      simp at hvalue
    · exact h.records other family key value partition hfamily hvalue hheld
  eraseFamily {s} h name := by
    refine ⟨fun other family key value partition hfamily hvalue hheld => ?_, h.memory, h.nonneg⟩
    change (s.disk.families.erase name)[other]? = some family at hfamily
    rw [Std.ExtTreeMap.getElem?_erase] at hfamily
    split_ifs at hfamily
    exact h.records other family key value partition hfamily hvalue hheld
  same {s t} h hterms hdisk hfamilies := by
    have hdurable : t.durable = s.durable := by
      unfold durable
      rw [hdisk]
    exact h.rise hfamilies (fun partition => (congrFun hdurable partition).ge)
      (fun partition => by rw [hterms, hdurable]; exact h.memory partition)
      (fun partition => by rw [hterms]; exact h.nonneg partition)

/-- The terms in memory are the ones on disk. -/
def Settled (s : Store) : Prop := ∀ partition, s.terms partition = s.durable partition

/-- No term on disk is taken back. -/
def Rises (s t : Store) : Prop := ∀ partition, s.durable partition ≤ t.durable partition

/-- What a thread knows at a stage. -/
def AtStage (s : Store) : TermStage → Prop
  | .reading _ record | .comparing _ record | .waiting _ record => record.stamp.Fits
  | .putting _ record =>
    record.stamp.Fits ∧ record.stamp.term ≤ s.durable (partitionOf record.key)
  | .rechecking _ record => record.stamp.Fits ∧ s.Settled
  | .batching _ record raised =>
    record.stamp.Fits ∧ s.Settled ∧
      raised = decide (s.terms (partitionOf record.key) < record.stamp.term)
  | .storing _ record =>
    s.durable = Function.update s.terms (partitionOf record.key) record.stamp.term
  | .walking _ file rest carried _ _ =>
    ∃ before, file = before ++ rest ∧ carried = before.foldl carryTerm fun _ => 0
  | .queueing _ file carried _ _ => carried = carriedTerms file
  | .collecting _ file carried _ _ => carried = carriedTerms file ∧ s.Settled
  | .landing _ file carried batch _ _ =>
    carried = carriedTerms file ∧ s.Settled ∧
      batch = Finset.univ.filter fun partition => s.terms partition < carried partition
  | .spreading _ file raised left _ _ =>
    s.Covers file ∧ left.Nodup ∧ ∀ partition, s.durable partition =
      if partition ∈ left ∧ 0 < raised partition then raised partition else s.terms partition
  | .sifting _ rest kept => s.Covers rest ∧ s.Covers kept
  | .ingesting _ kept => s.Covers kept

end Store

/-- The stages that hold `term_mutex`. -/
def TermStage.holds : TermStage → Bool
  | .rechecking .. | .batching .. | .storing .. => true
  | .collecting .. | .landing .. | .spreading .. => true
  | _ => false

namespace Store

variable {s t : Store}

theorem Rises.of_terms (h : t.disk.terms = s.disk.terms) : s.Rises t := by
  intro partition
  unfold durable
  rw [h]

/-- What a thread knows outlives the steps of the others, which change no term while it has the
mutex. -/
theorem AtStage.mono {stage : TermStage} (h : s.AtStage stage) (hrise : s.Rises t)
    (hlocked : stage.holds = true → t.terms = s.terms ∧ t.disk.terms = s.disk.terms) :
    t.AtStage stage := by
  have hsame : stage.holds = true → t.terms = s.terms ∧ t.durable = s.durable := by
    intro hholds
    obtain ⟨hterms, hdisk⟩ := hlocked hholds
    refine ⟨hterms, ?_⟩
    unfold durable
    rw [hdisk]
  cases stage
  case reading | comparing | waiting | walking | queueing => exact h
  case putting => exact ⟨h.1, h.2.trans (hrise _)⟩
  case sifting => exact ⟨h.1.mono hrise, h.2.mono hrise⟩
  case ingesting => exact Covers.mono h hrise
  all_goals
    obtain ⟨hterms, hdurable⟩ := hsame rfl
    simp only [AtStage, Settled, Covers, hterms, hdurable] at h ⊢
    exact h

end Store

namespace TermRun

variable {s t : TermRun} {thread : ℕ}

/-- What holds between any two steps. -/
structure Kept (s : TermRun) : Prop where
  remembers : s.store.Remembers
  settled : s.holder = none → s.store.Settled
  /-- The mutex is with the one thread at a stage that holds it. -/
  holding : ∀ thread : ℕ, s.holder = some thread ↔ s.threads[thread]?.any TermStage.holds = true
  stages : ∀ (thread : ℕ) (stage : TermStage), s.threads[thread]? =
    some stage → s.store.AtStage stage

/-- A step of one thread, which comes to a stage or leaves. What it does to the terms it does with
the mutex, and it lets go of the mutex only where the terms in memory are those on disk. -/
theorem Kept.moved (h : s.Kept) {held : Bool} (hold : s.threads[thread]?.any TermStage.holds = held)
    (hothers : ∀ other ≠ thread, t.threads[other]? = s.threads[other]?)
    (hremembers : t.store.Remembers) (hrise : s.store.Rises t.store)
    (hterms : held = true ∨
      t.store.terms = s.store.terms ∧ t.store.disk.terms = s.store.disk.terms)
    (hholder : t.holder = if t.threads[thread]?.any TermStage.holds = true then some thread
      else if held = true then none else s.holder)
    (hfree : t.threads[thread]?.any TermStage.holds = true → held = true ∨ s.holder = none)
    (hsettled : held = true → t.threads[thread]?.any TermStage.holds = false → t.store.Settled)
    (hstage : ∀ stage, t.threads[thread]? = some stage → t.store.AtStage stage) : t.Kept := by
  have hown : s.holder = some thread ↔ held = true := by
    rw [h.holding, hold]
  refine ⟨hremembers, fun hnone => ?_, fun other => ?_, fun other stage hother => ?_⟩
  · -- the mutex was free already, or this thread lets go of it
    by_cases hnew : t.threads[thread]?.any TermStage.holds = true
    · rw [hholder, if_pos hnew] at hnone
      exact absurd hnone (Option.some_ne_none _)
    · by_cases hwas : held = true
      · exact hsettled hwas (Bool.eq_false_iff.mpr hnew)
      · rw [hholder, if_neg hnew, if_neg hwas] at hnone
        obtain ⟨hmemory, hdisk⟩ := hterms.resolve_left hwas
        intro partition
        have hbefore := h.settled hnone partition
        unfold Store.durable at hbefore ⊢
        rw [hmemory, hdisk, hbefore]
  · by_cases hsame : other = thread
    · subst hsame
      by_cases hnew : t.threads[other]?.any TermStage.holds = true
      · rw [hholder, if_pos hnew]
        exact iff_of_true rfl hnew
      · rw [hholder, if_neg hnew]
        refine iff_of_false ?_ hnew
        by_cases hwas : held = true
        · rw [if_pos hwas]
          exact (Option.some_ne_none _).symm
        · rw [if_neg hwas]
          exact fun hmine => hwas (hown.mp hmine)
    · rw [hothers other hsame, ← h.holding other, hholder]
      split_ifs with hnew hwas
      · refine iff_of_false (fun heq => hsame (Option.some.inj heq).symm) fun hmine => ?_
        rcases hfree hnew with hwas | hnone
        · exact hsame (Option.some.inj (hmine.symm.trans (hown.mpr hwas)))
        · exact absurd (hnone.symm.trans hmine) (Option.some_ne_none _).symm
      · refine iff_of_false not_false fun hmine => ?_
        exact hsame (Option.some.inj (hmine.symm.trans (hown.mpr hwas)))
      · exact Iff.rfl
  · by_cases hsame : other = thread
    · subst hsame
      exact hstage stage hother
    · rw [hothers other hsame] at hother
      refine (h.stages other stage hother).mono hrise fun hholds =>
        hterms.resolve_left fun hwas => ?_
      have hmine : s.holder = some other := by
        rw [h.holding, hother]
        exact hholds
      exact hsame (Option.some.inj (hmine.symm.trans (hown.mpr hwas)))

theorem getElem?_threads_self {stage : TermStage} :
    (s.comes thread stage).threads[thread]? = some stage := Std.ExtTreeMap.getElem?_insert_self

theorem getElem?_threads_comes {stage : TermStage} {other : ℕ} (hne : other ≠ thread) :
    (s.comes thread stage).threads[other]? = s.threads[other]? := by
  simp [comes, Std.ExtTreeMap.getElem?_insert, hne.symm]

theorem getElem?_threads_leaves {other : ℕ} (hne : other ≠ thread) :
    (s.leaves thread).threads[other]? = s.threads[other]? := by
  simp [leaves, Std.ExtTreeMap.getElem?_erase, hne.symm]

/-- A step that keeps what holds and takes no term back. -/
structure Advances (s t : TermRun) : Prop where
  kept : t.Kept
  rises : s.store.Rises t.store

section

variable (h : s.Kept) {new : TermStage}
include h

/-- A thread without the mutex goes on without it. -/
theorem Kept.comes (hbefore : s.threads[thread]?.any TermStage.holds = false)
    (hafter : new.holds = false)
    (hstage : s.store.AtStage new) : s.Advances (s.comes thread new) := by
  have hcomes : (s.comes thread new).threads[thread]? = some new := getElem?_threads_self
  have hrise : s.store.Rises (s.comes thread new).store := fun _ => le_rfl
  refine ⟨h.moved hbefore (fun _ => getElem?_threads_comes) h.remembers hrise (.inr ⟨rfl, rfl⟩)
    ?_ ?_ ?_ ?_, hrise⟩
  all_goals
    rw [hcomes]
    simp [hafter, TermRun.comes, hstage]

/-- A thread without the mutex is done, or throws, and changes no term. -/
theorem Kept.leaves {store : Store} (hbefore : s.threads[thread]?.any TermStage.holds = false)
    (hremembers : store.Remembers)
    (hmemory : store.terms = s.store.terms) (hdisk : store.disk.terms = s.store.disk.terms) :
    s.Advances ((s.withStore store).leaves thread) := by
  have hleaves : ((s.withStore store).leaves thread).threads[thread]? = none :=
    Std.ExtTreeMap.getElem?_erase_self
  have hrise : s.store.Rises ((s.withStore store).leaves thread).store := Store.Rises.of_terms hdisk
  refine ⟨h.moved hbefore (fun _ => getElem?_threads_leaves) hremembers hrise
    (.inr ⟨hmemory, hdisk⟩) ?_ ?_ ?_ ?_, hrise⟩
  all_goals
    rw [hleaves]
    simp [TermRun.leaves, TermRun.withStore]

/-- A thread takes the mutex. -/
theorem Kept.locks (hbefore : s.threads[thread]?.any TermStage.holds = false)
    (hafter : new.holds = true) (hfree : s.holder = none) (hstage : s.store.AtStage new) :
    s.Advances ((s.locked thread).comes thread new) := by
  have hcomes : ((s.locked thread).comes thread new).threads[thread]? = some new :=
    getElem?_threads_self
  have hrise : s.store.Rises ((s.locked thread).comes thread new).store := fun _ => le_rfl
  refine ⟨h.moved hbefore (fun _ => getElem?_threads_comes) h.remembers hrise (.inr ⟨rfl, rfl⟩)
    ?_ ?_ ?_ ?_, hrise⟩
  all_goals
    rw [hcomes]
    simp [hafter, hfree, TermRun.comes, TermRun.locked]
  exact hstage

/-- A thread goes on with the mutex. -/
theorem Kept.holds {store : Store} (hbefore : s.threads[thread]?.any TermStage.holds = true)
    (hafter : new.holds = true)
    (hremembers : store.Remembers) (hrise : s.store.Rises store) (hstage : store.AtStage new) :
    s.Advances ((s.withStore store).comes thread new) := by
  have hcomes : ((s.withStore store).comes thread new).threads[thread]? = some new :=
    getElem?_threads_self
  have hmine : s.holder = some thread := by
    rw [h.holding, hbefore]
  refine ⟨h.moved hbefore (fun _ => getElem?_threads_comes) hremembers hrise (.inl rfl)
    ?_ ?_ ?_ ?_, hrise⟩
  all_goals
    rw [hcomes]
    simp [hafter, hmine, TermRun.comes, TermRun.withStore]
  exact hstage

/-- A thread lets go of the mutex and is done, or throws. -/
theorem Kept.unlocks {store : Store} (hbefore : s.threads[thread]?.any TermStage.holds = true)
    (hremembers : store.Remembers) (hrise : s.store.Rises store) (hsettled : store.Settled) :
    s.Advances ((s.withStore store).unlocked.leaves thread) := by
  have hleaves : ((s.withStore store).unlocked.leaves thread).threads[thread]? = none :=
    Std.ExtTreeMap.getElem?_erase_self
  refine ⟨h.moved hbefore (fun _ => getElem?_threads_leaves) hremembers hrise (.inl rfl)
    ?_ ?_ ?_ ?_, hrise⟩
  all_goals
    rw [hleaves]
    simp [TermRun.leaves, TermRun.withStore, TermRun.unlocked]
  exact hsettled

/-- An import lets go of the mutex and goes on, or is done. -/
theorem Kept.raised {name : Bytes} {file : List Store.Carried} {records held : ℕ}
    (hbefore : s.threads[thread]?.any TermStage.holds = true) (hsettled : s.store.Settled)
    (hcovers : s.store.Covers file) :
    s.Advances (s.unlocked.raised thread name file records held) := by
  have hrise : s.store.Rises s.store := fun _ => le_rfl
  have hgoes : ∀ new : TermStage, new.holds = false → s.store.AtStage new →
      s.Advances (s.unlocked.comes thread new) := by
    intro new hafter hstage
    have hcomes : (s.unlocked.comes thread new).threads[thread]? = some new := getElem?_threads_self
    refine ⟨h.moved hbefore (fun _ => getElem?_threads_comes) h.remembers hrise (.inl rfl)
      ?_ ?_ ?_ ?_, hrise⟩
    all_goals
      rw [hcomes]
      simp [hafter, TermRun.comes, TermRun.unlocked]
    · exact hsettled
    · exact hstage
  unfold TermRun.raised
  split_ifs
  · exact h.unlocks hbefore h.remembers hrise hsettled
  · exact hgoes _ rfl hcovers
  · exact hgoes _ rfl ⟨hcovers, fun _ hmem => absurd hmem List.not_mem_nil⟩

end

/-- A record of no newer term than the one on disk may be put. -/
theorem remembers_put {store : Store} (h : store.Remembers) (name : Bytes) {record : Record}
    (hfits : record.stamp.Fits)
    (hterm : record.stamp.term ≤ store.durable (partitionOf record.key)) :
    (store.setFamily name ((store.disk.families[name]?.getD ∅).insert (Store.storeKey record.key)
      (Record.composeValue record.stamp record.value))).Remembers := by
  suffices hcovers : store.Covers [(Store.storeKey record.key,
      Record.composeValue record.stamp record.value)] from h.ingest hcovers
  intro carried hmem partition hheld
  rw [List.mem_singleton.mp hmem] at hheld ⊢
  rw [Store.partitionHeld_storeKey] at hheld
  rw [Record.versionOf_composeValue hfits, ← Fin.ext hheld]
  exact hterm

/-- The terms of a batch are on disk before those in memory are raised. -/
theorem Kept.lands (h : s.Kept) {terms : Partition → Option ℤ}
    (hrise : ∀ partition, s.store.durable partition ≤ (terms partition).getD 0) :
    ({ s.store with disk := { s.store.disk with terms } } : Store).Remembers :=
  h.remembers.rise rfl hrise (fun partition =>
    (h.remembers.memory partition).trans (hrise partition)) h.remembers.nonneg

/-- One batch holds a record of a newer term and the term, so that the term is on disk with it. -/
theorem Kept.batched (h : s.Kept) {name : Bytes} {record : Record}
    (hheld : s.threads[thread]?.any TermStage.holds = true) (hfits : record.stamp.Fits)
    (hsettled : s.store.Settled)
    (hlt : s.store.terms (partitionOf record.key) < record.stamp.term) :
    s.Advances (s.advance thread true (.batching name record true)) := by
  have hdurable : ∀ partition, ((Function.update s.store.disk.terms (partitionOf record.key)
      (some record.stamp.term)) partition).getD 0 =
        Function.update s.store.terms (partitionOf record.key) record.stamp.term partition := by
    intro partition
    by_cases hsame : partition = partitionOf record.key
    · subst hsame
      simp
    · rw [Function.update_of_ne hsame, Function.update_of_ne hsame, hsettled]
      rfl
  have hrises : ∀ partition, s.store.durable partition ≤
      ((Function.update s.store.disk.terms (partitionOf record.key)
        (some record.stamp.term)) partition).getD 0 := by
    intro partition
    rw [hdurable, ← hsettled]
    by_cases hsame : partition = partitionOf record.key
    · subst hsame
      rw [Function.update_self]
      exact hlt.le
    · rw [Function.update_of_ne hsame]
  refine h.holds hheld rfl ?_ hrises (funext hdurable)
  -- the record may be put once its term is on disk
  refine remembers_put (h.lands hrises) name hfits ?_
  exact (hdurable _).trans (Function.update_self ..) |>.ge

/-- The terms a file carries are on disk before any of its records is. -/
theorem Kept.landed (h : s.Kept) {name : Bytes} {file : List Store.Carried}
    {batch : Finset Partition} {records held : ℕ}
    (hheld : s.threads[thread]?.any TermStage.holds = true) (hsettled : s.store.Settled)
    (hmem : ∀ partition, partition ∈ batch ↔
      s.store.terms partition < Store.carriedTerms file partition) :
    s.Advances (s.advance thread true
      (.landing name file (Store.carriedTerms file) batch records held)) := by
  -- what is on disk once the batch is written
  have hdurable : ∀ partition, (if partition ∈ batch then some (Store.carriedTerms file partition)
      else s.store.disk.terms partition).getD 0 =
        max (s.store.terms partition) (Store.carriedTerms file partition) := by
    intro partition
    split_ifs with hin
    · exact (max_eq_right ((hmem _).mp hin).le).symm
    · rw [max_eq_left (not_lt.mp (mt (hmem _).mpr hin)), hsettled]
      rfl
  have hrises : ∀ partition, s.store.durable partition ≤
      (if partition ∈ batch then some (Store.carriedTerms file partition)
        else s.store.disk.terms partition).getD 0 := by
    intro partition
    rw [hdurable, ← hsettled]
    exact le_max_left _ _
  refine h.holds hheld rfl (h.lands hrises) hrises ⟨?_, List.nodup_finRange _, ?_⟩
  · intro next hnext partition hheld
    refine (Store.term_le_carriedTerms hnext hheld).trans ?_
    exact (le_max_right _ _).trans (hdurable partition).ge
  · -- no term in memory is raised yet
    intro partition
    refine (hdurable partition).trans ?_
    have hnonneg := h.remembers.nonneg partition
    have hall : partition ∈ List.finRange partitionCount := List.mem_finRange _
    by_cases hin : partition ∈ batch
    · have hlt := (hmem _).mp hin
      simp only [hall, hin, if_true, true_and]
      rw [if_pos (hnonneg.trans_lt hlt), max_eq_right hlt.le]
    · simp only [hin, if_false, lt_irrefl, and_false]
      exact max_eq_left (not_lt.mp (mt (hmem _).mpr hin))

/-- The loop over the terms in memory raises one of them to the one on disk. -/
theorem Kept.spread (h : s.Kept) {name : Bytes} {file : List Store.Carried}
    {raised : PartitionTerms} {next : Partition} {left : List Partition} {records held : ℕ}
    (hheld : s.threads[thread]?.any TermStage.holds = true) (hcovers : s.store.Covers file)
    (hnodup : (next :: left).Nodup)
    (hleft : ∀ partition, s.store.durable partition =
      if partition ∈ next :: left ∧ 0 < raised partition then raised partition
      else s.store.terms partition) :
    s.Advances
      (s.advance thread true (.spreading name file raised (next :: left) records held)) := by
  have hrise : s.store.Rises s.store := fun _ => le_rfl
  obtain ⟨hnext, hnodup⟩ := List.nodup_cons.mp hnodup
  -- the invariant of the loop, one partition further
  have hterms : ∀ partition, s.store.durable partition =
      if partition ∈ left ∧ 0 < raised partition then raised partition
      else (if 0 < raised next then Function.update s.store.terms next (raised next)
        else s.store.terms) partition := by
    intro partition
    rw [hleft]
    by_cases hsame : partition = next
    · subst hsame
      by_cases hpos : 0 < raised partition <;> simp [hnext, hpos]
    · by_cases hpos : 0 < raised next <;> simp [hsame, hpos]
  refine h.holds hheld rfl ?_ hrise ⟨hcovers, hnodup, hterms⟩
  have hnow : ∀ partition, (if 0 < raised next then
      Function.update s.store.terms next (raised next) else s.store.terms) partition =
        if partition = next ∧ 0 < raised next then raised next else s.store.terms partition := by
    intro partition
    by_cases hpos : 0 < raised next <;> simp [hpos, Function.update_apply]
  have hmemory : ∀ partition, (if partition = next ∧ 0 < raised next then raised next
      else s.store.terms partition) ≤ s.store.durable partition := by
    intro partition
    split_ifs with hown
    · rw [hown.1, hleft, if_pos ⟨List.mem_cons_self, hown.2⟩]
    · exact h.remembers.memory partition
  have hnonneg : ∀ partition, 0 ≤ if partition = next ∧ 0 < raised next then raised next
      else s.store.terms partition := by
    intro partition
    split_ifs with hown
    · exact hown.2.le
    · exact h.remembers.nonneg partition
  refine h.remembers.rise rfl hrise (fun partition => ?_) fun partition => ?_
  · exact (hnow partition).trans_le (hmemory partition)
  · exact (hnonneg partition).trans_eq (hnow partition).symm

/-- A thread takes its next step. -/
theorem Kept.advance (h : s.Kept) {stage : TermStage} (hold : s.threads[thread]? = some stage)
    (ok : Bool) : s.Advances (s.advance thread ok stage) := by
  have hhere := h.stages thread stage hold
  have hstays : s.Advances s := ⟨h, fun _ => le_rfl⟩
  have hrise : s.store.Rises s.store := fun _ => le_rfl
  have hheld : s.threads[thread]?.any TermStage.holds = stage.holds := by
    rw [hold]
    rfl
  have hdone : stage.holds = false → s.Advances (s.leaves thread) :=
    fun hbefore => Kept.leaves h (hheld.trans hbefore) h.remembers rfl rfl
  have hgives : stage.holds = true → s.store.Settled → s.Advances (s.unlocked.leaves thread) :=
    fun hbefore => Kept.unlocks h (hheld.trans hbefore) h.remembers hrise
  cases stage with
  | reading name record =>
    rw [TermRun.advance]
    split_ifs
    · exact hdone rfl
    · exact h.comes hheld rfl hhere
  | comparing name record =>
    rw [TermRun.advance]
    split_ifs with hle
    · exact h.comes hheld rfl ⟨hhere, hle.trans (h.remembers.memory _)⟩
    · exact h.comes hheld rfl hhere
  | putting name record =>
    cases ok
    · exact hdone rfl
    · exact h.leaves hheld (remembers_put h.remembers name hhere.1 hhere.2) rfl rfl
  | waiting name record =>
    rw [TermRun.advance]
    split_ifs with hfree
    · exact h.locks hheld rfl hfree ⟨hhere, h.settled hfree⟩
    · exact hstays
  | rechecking name record =>
    exact Kept.holds h hheld rfl h.remembers hrise ⟨hhere.1, hhere.2, rfl⟩
  | batching name record raised =>
    obtain ⟨hfits, hsettled, hraised⟩ := hhere
    cases ok
    · cases raised <;> exact hgives rfl hsettled
    · cases raised with
      | false =>
        have hle : record.stamp.term ≤ s.store.durable (partitionOf record.key) := by
          rw [← hsettled]
          simpa using hraised
        exact h.unlocks hheld (remembers_put h.remembers name hfits hle)
          (Store.Rises.of_terms rfl) hsettled
      | true =>
        have hlt : s.store.terms (partitionOf record.key) < record.stamp.term := by
          simpa using hraised
        exact h.batched hheld hfits hsettled hlt
  | storing name record =>
    refine h.unlocks hheld ?_ hrise fun partition => (congrFun hhere partition).symm
    refine h.remembers.rise rfl hrise (fun partition => (congrFun hhere partition).ge)
      fun partition => ?_
    refine (h.remembers.nonneg partition).trans ((h.remembers.memory partition).trans ?_)
    exact (congrFun hhere partition).le
  | walking name file rest carried records held =>
    obtain ⟨before, hfile, hcarried⟩ := hhere
    cases rest with
    | nil =>
      refine h.comes hheld rfl ?_
      rw [List.append_nil] at hfile
      rw [hcarried, hfile]
      rfl
    | cons next rest =>
      refine h.comes hheld rfl ⟨before ++ [next], ?_, ?_⟩
      · rw [hfile, List.append_assoc, List.singleton_append]
      · rw [hcarried, List.foldl_append]
        rfl
  | queueing name file carried records held =>
    rw [TermRun.advance]
    split_ifs with hfree
    · exact h.locks hheld rfl hfree ⟨hhere, h.settled hfree⟩
    · exact hstays
  | collecting name file carried records held =>
    obtain ⟨hcarried, hsettled⟩ := hhere
    rw [TermRun.advance]
    split_ifs with hle
    · refine h.raised hheld hsettled fun carried' hmem partition hheld => ?_
      rw [← hsettled]
      refine (Store.term_le_carriedTerms hmem hheld).trans ?_
      rw [← hcarried]
      exact hle partition
    · exact Kept.holds h hheld rfl h.remembers hrise ⟨hcarried, hsettled, rfl⟩
  | landing name file carried batch records held =>
    obtain ⟨hcarried, hsettled, hbatch⟩ := hhere
    subst hcarried
    cases ok
    · exact hgives rfl hsettled
    · refine h.landed hheld hsettled fun partition => ?_
      rw [hbatch, Finset.mem_filter]
      exact and_iff_right (Finset.mem_univ _)
  | spreading name file raised left records held =>
    obtain ⟨hcovers, hnodup, hleft⟩ := hhere
    cases left with
    | nil =>
      refine h.raised hheld (fun partition => ?_) hcovers
      rw [hleft, if_neg (fun hmem => List.not_mem_nil hmem.1)]
    | cons next left => exact h.spread hheld hcovers hnodup hleft
  | sifting name rest kept =>
    obtain ⟨hrest, hkept⟩ := hhere
    cases rest with
    | nil =>
      rw [TermRun.advance]
      split_ifs
      · exact hdone rfl
      · exact h.comes hheld rfl hkept
    | cons next rest =>
      refine h.comes hheld rfl ⟨hrest.subset (List.subset_cons_self _ _), ?_⟩
      split_ifs
      · intro carried hmem
        rcases List.mem_append.mp hmem with hmem | hmem
        · exact hkept carried hmem
        · rw [List.mem_singleton.mp hmem]
          exact hrest next List.mem_cons_self
      · exact hkept
  | ingesting name kept =>
    cases ok
    · exact hdone rfl
    · exact h.leaves hheld (h.remembers.ingest hhere) rfl rfl

variable (J : JsonCodec)

/-- What is done to the tables is done while no thread is in the store. -/
theorem Kept.steady (h : s.Kept) {store : Store} (hnone : s.threads.isEmpty = true)
    (hremembers : store.Remembers) (hmemory : store.terms = s.store.terms)
    (hdisk : store.disk.terms = s.store.disk.terms) : s.Advances (s.withStore store) := by
  have hempty : ∀ thread : ℕ, s.threads[thread]? = none := by
    intro thread
    rw [Std.ExtTreeMap.isEmpty_iff.mp hnone]
    exact Std.ExtTreeMap.getElem?_empty
  have hfree : s.holder = none := by
    cases hholder : s.holder with
    | none => rfl
    | some thread =>
      have hin := (h.holding thread).mp hholder
      rw [hempty] at hin
      cases hin
  have hrise : s.store.Rises store := Store.Rises.of_terms hdisk
  refine ⟨⟨hremembers, fun _ partition => ?_, h.holding, fun thread stage hstage => ?_⟩, hrise⟩
  · change store.terms partition = store.durable partition
    rw [hmemory, h.settled hfree]
    unfold Store.durable
    rw [hdisk]
  · exact absurd ((hempty thread).symm.trans hstage) (Option.some_ne_none stage).symm

/-- A store that is opened has the terms of its disk. -/
theorem remembers_openStore {store : Store} (h : store.Remembers) :
    (after (Store.openStore J {} store.disk)).Remembers ∧
      (after (Store.openStore J {} store.disk)).terms = store.durable ∧
      (after (Store.openStore J {} store.disk)).durable = store.durable := by
  obtain ⟨families, hopen, hfamilies⟩ := Store.openStore_eq J store.disk
  have hnonneg : ∀ partition, 0 ≤ store.durable partition :=
    fun partition => (h.nonneg partition).trans (h.memory partition)
  rw [hopen]
  refine ⟨⟨?_, fun _ => le_rfl, hnonneg⟩, rfl, rfl⟩
  intro name family key value partition hfamily hvalue hheld
  change families[name]? = some family at hfamily
  rw [hfamilies] at hfamily
  have hbefore : ∃ before, store.disk.families[name]? = some before ∧
    before[key]? = some value := by
    cases hold : store.disk.families[name]? with
    | none =>
      rw [hold] at hfamily
      split_ifs at hfamily with hlive
      rw [← Option.some.inj hfamily] at hvalue
      simp at hvalue
    | some before =>
      rw [hold] at hfamily
      refine ⟨before, rfl, ?_⟩
      have hsame : before = family := by
        split_ifs at hfamily <;> exact Option.some.inj hfamily
      rw [hsame]
      exact hvalue
  obtain ⟨before, hfamily, hvalue⟩ := hbefore
  exact h.records name before key value partition hfamily hvalue hheld

theorem kept_opened {store : Store} (h : store.Remembers) :
    ({ store := after (Store.openStore J {} store.disk) } : TermRun).Kept := by
  obtain ⟨hremembers, hmemory, hdurable⟩ := remembers_openStore J h
  refine ⟨hremembers, fun _ partition => ?_, fun thread => ?_, fun thread stage hstage => ?_⟩
  · exact (congrFun hmemory partition).trans (congrFun hdurable partition).symm
  · simp
  · exact absurd (hstage.symm.trans Std.ExtTreeMap.getElem?_empty) (Option.some_ne_none stage)

/-- The terms of another store. -/
theorem steady_terms (other : Store) : Store.Steady fun store => store.Remembers ∧
    store.terms = other.terms ∧ store.disk.terms = other.disk.terms where
  setFamily h name := ⟨Store.steady_remembers.setFamily h.1 name, h.2⟩
  eraseFamily h name := ⟨Store.steady_remembers.eraseFamily h.1 name, h.2⟩
  same h hmemory hdisk hfamilies := ⟨Store.steady_remembers.same h.1 hmemory hdisk hfamilies,
    hmemory.trans h.2.1, hdisk.trans h.2.2⟩

/-- What one step keeps. -/
theorem Kept.step (h : s.Kept) (e : TermEvent) : s.Advances (step J s e) := by
  have hstays : s.Advances s := ⟨h, fun _ => le_rfl⟩
  have htables : ∀ store : Store, (store.Remembers ∧ store.terms = s.store.terms ∧
      store.disk.terms = s.store.disk.terms) → s.threads.isEmpty = true →
        s.Advances (s.withStore store) :=
    fun store hstore hnone => h.steady hnone hstore.1 hstore.2.1 hstore.2.2
  have hown := steady_terms s.store
  have harrives : ∀ {thread : ℕ} {new : TermStage}, thread ∉ s.threads → new.holds = false →
      s.store.AtStage new → s.Advances (s.comes thread new) := by
    intro thread new hnew
    refine h.comes ?_
    rw [Std.ExtTreeMap.getElem?_eq_none hnew]
    rfl
  cases e with
  | create db table stamp =>
    rw [TermRun.step]
    split_ifs with hnone
    · exact htables _ (hown.createTable J db table stamp s.store ⟨h.remembers, rfl, rfl⟩) hnone
    · exact hstays
  | delete db name stamp =>
    rw [TermRun.step]
    split_ifs with hnone
    · exact htables _ (hown.deleteTable J db name stamp s.store ⟨h.remembers, rfl, rfl⟩) hnone
    · exact hstays
  | merge db named =>
    rw [TermRun.step]
    split_ifs with hnone
    · exact htables _ (hown.mergeSchema J db named s.store ⟨h.remembers, rfl, rfl⟩) hnone
    · exact hstays
  | write thread name record fits =>
    rw [TermRun.step]
    split_ifs with hnew
    · exact harrives hnew.1 rfl fits
    · exact hstays
  | imports thread name file =>
    rw [TermRun.step]
    split_ifs with hnew
    · exact harrives hnew.1 rfl ⟨[], rfl, rfl⟩
    · exact hstays
  | go thread ok =>
    rw [TermRun.step]
    cases hstage : s.threads[thread]? with
    | none => exact hstays
    | some stage => exact h.advance hstage ok
  | stop =>
    obtain ⟨-, -, hdurable⟩ := remembers_openStore J h.remembers
    exact ⟨kept_opened J h.remembers, fun partition => (congrFun hdurable partition).ge⟩

/-- A store in a new directory has nothing to remember. -/
theorem kept_start : (start J).Kept := by
  have hnothing : ({ disk := Disk.fresh } : Store).Remembers := by
    refine ⟨fun name family key value partition hfamily hvalue _ => ?_, fun _ =>
      le_rfl, fun _ => le_rfl⟩
    change Disk.fresh.families[name]? = some family at hfamily
    rw [Disk.fresh, Std.ExtTreeMap.getElem?_insert] at hfamily
    split_ifs at hfamily
    · rw [← Option.some.inj hfamily] at hvalue
      simp at hvalue
    · simp at hfamily
  exact kept_opened J hnothing

end TermRun

section

open TermRun

/-- **A store remembers every term it has records of.** Between any two steps, whatever the threads
do at once, whatever fails and wherever the processes end: each partition's term on disk is at least
that of every record of it in every table, the term in memory is not above it, and opening the store
again reads it back. No step takes it back. -/
theorem remembered (J : JsonCodec) (es : List TermEvent) :
    Always (step J) (fun s => s.store.Remembers ∧
        (after (Store.openStore J {} s.store.disk)).terms = s.store.durable) (start J) es ∧
      Throughout (step J) (fun s e => ∀ partition,
        s.store.durable partition ≤ (step J s e).store.durable partition) (start J) es := by
  have hkeep : ∀ s e, s.Kept → True → (step J s e).Kept := fun s e hs _ => (Kept.step J hs e).kept
  have htrue : Throughout (step J) (fun _ _ => True) (start J) es := throughout_true _ es
  constructor
  · refine (htrue.always hkeep (kept_start J)).mono fun s hs => ⟨hs.remembers, ?_⟩
    exact (remembers_openStore J hs.remembers).2.1
  · exact htrue.imp hkeep (fun s e hs _ => (Kept.step J hs e).rises) (kept_start J)

end

end AsyncDatabase
