import AsyncDatabase.Library.Refinement
import AsyncDatabase.Remembering

/-!
# Writes under their stripes

`write_record` reads what is held for its key, compares and writes under the lock of the key's
stripe, and takes `term_mutex` on the way where the term is newer. Here the threads of
`TermRun` take and give back those locks too (`StripedRun.step`), and a machine above them makes
every call in one step (`Store.atomicStep`). `writes_are_atomic` says that any run of the one is a
run of the other, and `never_deadlocks` that a thread in a call never waits for nothing.
-/

namespace AsyncDatabase

open Bytes (ascii)
open Machine Throwing

/-! ### The machine -/

/-- How many locks the writes of a store take in turns. -/
def writeStripes : ℕ := 4096

/-- The stripe of a key, by a hash of the key the store holds it under. -/
def stripeOf (hash : Bytes → ℕ) (key : Bytes) : ℕ := hash (Store.storeKey key) % writeStripes

/-- A call of `write_record` in progress: the table and the record. -/
abbrev WriteCall := Bytes × Record

namespace TermStage

/-- The table a thread is at. -/
def table : TermStage → Bytes
  | .reading name _ | .comparing name _ | .putting name _ | .waiting name _ => name
  | .rechecking name _ | .batching name _ _ | .storing name _ => name
  | .walking name .. | .queueing name .. | .collecting name .. | .landing name .. => name
  | .spreading name .. | .sifting name .. | .ingesting name .. => name

/-- The write a thread carries out, with the lock of its stripe. -/
def call : TermStage → Option WriteCall
  | .reading name record | .comparing name record | .putting name record => some (name, record)
  | .waiting name record | .rechecking name record => some (name, record)
  | .batching name record _ | .storing name record => some (name, record)
  | _ => none

/-- The write a thread has compared with what is held, and has not made. -/
def decided : TermStage → Option WriteCall
  | .comparing name record | .putting name record | .waiting name record => some (name, record)
  | .rechecking name record | .batching name record _ => some (name, record)
  | _ => none

/-- The write a thread makes at its next step. -/
def makes : TermStage → Option WriteCall
  | .putting name record | .batching name record _ => some (name, record)
  | _ => none

/-- The write a thread has made, and has not returned from. -/
def made : TermStage → Option WriteCall
  | .storing name record => some (name, record)
  | _ => none

theorem table_of_call {stage : TermStage} {name : Bytes} {record : Record}
    (h : stage.call = some (name, record)) : stage.table = name := by
  cases stage <;> cases h <;> rfl

theorem call_of_decided {stage : TermStage} {call : WriteCall} (h : stage.decided = some call) :
    stage.call = some call := by
  cases stage <;> cases h <;> rfl

end TermStage

/-- What happens to a store. A clear, which compares before it, deletes what it found in one batch,
at any moment. -/
inductive StripedEvent where
  | of (e : TermEvent)
  | clear (name : Bytes) (keys : List Bytes)

/-- A store with the threads that write to it, and the locks they take in turns. -/
structure StripedRun where
  run : TermRun
  /-- The threads that wait for the lock of a stripe. -/
  queued : Std.ExtTreeMap ℕ WriteCall := ∅
  /-- The thread that holds the lock of a stripe. -/
  stripes : ℕ → Option ℕ := fun _ => none

namespace StripedRun

variable (J : JsonCodec) (hash : Bytes → ℕ)

/-- No thread is in a call. -/
def isIdle (s : StripedRun) : Bool := s.run.threads.isEmpty && s.queued.isEmpty

/-- A thread takes a step past its stripe's lock, which it gives back as it returns or throws. -/
def moves (s : StripedRun) (thread : ℕ) (run : TermRun) : StripedRun where
  run
  queued := s.queued
  stripes stripe := if thread ∉ run.threads ∧ s.stripes stripe = some thread then none
    else s.stripes stripe

def go (s : StripedRun) (thread : ℕ) (ok : Bool) : StripedRun :=
  match s.queued[thread]? with
  | some (name, record) =>
    let stripe := stripeOf hash record.key
    if s.stripes stripe = none then
      { run := s.run.comes thread (.reading name record)
        queued := s.queued.erase thread
        stripes := Function.update s.stripes stripe (some thread) }
    else s
  | none => s.moves thread (s.run.step J (.go thread ok))

/-- A clear writes its batch of deletes, with no lock of a stripe. -/
def clear (s : StripedRun) (name : Bytes) (keys : List Bytes) : StripedRun :=
  let store := s.run.store.setFamily name (Store.eraseAll (s.run.family name) keys)
  if name ∈ s.run.store.disk.families then { s with run := s.run.withStore store } else s

/-- What changes the tables waits for every call to end. -/
def alone (s : StripedRun) (e : TermEvent) : StripedRun :=
  if s.isIdle then { s with run := s.run.step J e } else s

def step (s : StripedRun) : StripedEvent → StripedRun
  | .clear name keys => s.clear name keys
  | .of (.write thread name record _) =>
    if thread ∉ s.run.threads ∧ thread ∉ s.queued ∧ name ∈ s.run.store.disk.families then
      { s with queued := s.queued.insert thread (name, record) }
    else s
  | .of (.imports thread name file) =>
    if thread ∈ s.queued then s else { s with run := s.run.step J (.imports thread name file) }
  | .of (.go thread ok) => s.go J hash thread ok
  | .of .stop => { run := s.run.step J .stop }
  | .of (.create db table stamp) => s.alone J (.create db table stamp)
  | .of (.delete db name stamp) => s.alone J (.delete db name stamp)
  | .of (.merge db named) => s.alone J (.merge db named)

def start : StripedRun where run := TermRun.start J

end StripedRun

/-! ### The machine above -/

/-- What a store does in one step. -/
inductive AtomicEvent where
  | tables (e : TermEvent)
  | write (name : Bytes) (record : Record)
  | raise (carried : PartitionTerms)
  | ingest (name : Bytes) (file : List Store.Carried)
  | erase (name : Bytes) (keys : List Bytes)

namespace Store

variable (J : JsonCodec)

/-- What an event does to a store no thread is in the middle of a call of. -/
def tablesStep (s : Store) : TermEvent → Store
  | .create db table stamp => after (createTable J db table stamp s)
  | .delete db name stamp => after (deleteTable J db name stamp s)
  | .merge db named => after (mergeSchema J db named s)
  | .stop => after (openStore J {} s.disk)
  | .write .. | .imports .. | .go .. => s

def atomicStep (s : Store) : AtomicEvent → Store
  | .tables e => s.tablesStep J e
  | .write name record => after (writeRecord {} name record s)
  | .raise carried => after (raiseTerms {} carried [] s)
  | .ingest name file => s.setFamily name (ingest (s.disk.families[name]?.getD ∅) file)
  | .erase name keys => s.setFamily name (eraseAll (s.disk.families[name]?.getD ∅) keys)

/-- The store as it is once the terms in memory have caught up with those on disk. -/
def settle (s : Store) : Store := { s with terms := s.durable }

end Store

/-- A family holds a newer version than that of a write. -/
def isOvertaken (family : Family) (record : Record) : Bool :=
  family[Store.storeKey record.key]?.any
    (Record.isNewer · (Record.composeValue record.stamp record.value))

namespace TermRun

/-- What a thread's step comes to. -/
def effects (s : TermRun) (ok : Bool) : TermStage → List AtomicEvent
  | .reading name record =>
    if ok = true ∧ isOvertaken (s.family name) record = true then [.write name record] else []
  | .putting name record | .batching name record _ => if ok then [.write name record] else []
  | .landing _ _ carried _ _ _ => if ok then [.raise carried] else []
  | .ingesting name kept => if ok then [.ingest name kept] else []
  | _ => []

/-- The write a thread's step returns from. -/
def returns (s : TermRun) (ok : Bool) : TermStage → List WriteCall
  | .reading name record =>
    if ok = true ∧ isOvertaken (s.family name) record = true then [(name, record)] else []
  | .putting name record | .batching name record false => if ok then [(name, record)] else []
  | .storing name record => [(name, record)]
  | _ => []

end TermRun

/-- The write an event of the machine above makes. -/
def AtomicEvent.call : AtomicEvent → Option WriteCall
  | .write name record => some (name, record)
  | _ => none

namespace StripedRun

/-- The stage of the thread that takes its next step, past the lock of its stripe. -/
def stageOf (s : StripedRun) (thread : ℕ) : Option TermStage :=
  if thread ∈ s.queued then none else s.run.threads[thread]?

def aloneEffects (s : StripedRun) (e : TermEvent) : List AtomicEvent :=
  if s.isIdle then [.tables e] else []

/-- What a step comes to. -/
def effects (s : StripedRun) : StripedEvent → List AtomicEvent
  | .clear name keys => if name ∈ s.run.store.disk.families then [.erase name keys] else []
  | .of (.go thread ok) => ((s.stageOf thread).map (s.run.effects ok)).getD []
  | .of .stop => [.tables .stop]
  | .of (.write ..) | .of (.imports ..) => []
  | .of (.create db table stamp) => s.aloneEffects (.create db table stamp)
  | .of (.delete db name stamp) => s.aloneEffects (.delete db name stamp)
  | .of (.merge db named) => s.aloneEffects (.merge db named)

/-- The writes that a step of one thread comes to. -/
def makes (thread : ℕ) (s : StripedRun) : StripedEvent → List WriteCall
  | .of (.go other ok) => if other = thread then
      (((s.stageOf other).map (s.run.effects ok)).getD []).filterMap AtomicEvent.call else []
  | _ => []

/-- The writes that a thread returns from. -/
def returns (thread : ℕ) (s : StripedRun) : StripedEvent → List WriteCall
  | .of (.go other ok) =>
    if other = thread then ((s.stageOf other).map (s.run.returns ok)).getD [] else []
  | _ => []

/-- The write a thread has made, and has not returned from. -/
def made (thread : ℕ) (s : StripedRun) : List WriteCall :=
  ((s.run.threads[thread]?).bind TermStage.made).toList

/-- A write is made over a newer version than its own. -/
def Undoes (s : StripedRun) : StripedEvent → Prop
  | .of (.go thread true) => ∃ stage name record, s.stageOf thread = some stage ∧
      stage.makes = some (name, record) ∧ isOvertaken (s.run.family name) record = true
  | _ => False

/-- A file is ingested, and leaves a newer version in front of a write that has compared already. -/
def Overtakes (s : StripedRun) : StripedEvent → Prop
  | .of (.go thread true) => ∃ name kept, s.stageOf thread = some (.ingesting name kept) ∧
      ∃ (other : ℕ) (stage : TermStage) (record : Record), s.run.threads[other]? = some stage ∧
        stage.decided = some (name, record) ∧
        isOvertaken (Store.ingest (s.run.family name) kept) record = true
  | _ => False

end StripedRun

/-! ### What is left of a call -/

/-- At most how many more steps a thread takes. -/
def TermStage.left : TermStage → ℕ
  | .reading .. => 6
  | .comparing .. => 5
  | .waiting .. => 4
  | .rechecking .. => 3
  | .batching .. => 2
  | .putting .. | .storing .. => 1
  | .walking _ file rest .. => rest.length + partitionCount + file.length + 8
  | .queueing _ file .. => partitionCount + file.length + 7
  | .collecting _ file .. => partitionCount + file.length + 6
  | .landing _ file .. => partitionCount + file.length + 5
  | .spreading _ file _ left .. => left.length + file.length + 4
  | .sifting _ rest _ => rest.length + 2
  | .ingesting .. => 1

/-- The stages at which a thread waits for `term_mutex`. -/
def TermStage.waits : TermStage → Bool
  | .waiting .. | .queueing .. => true
  | _ => false

namespace StripedRun

def left (s : StripedRun) (thread : ℕ) : ℕ :=
  if thread ∈ s.queued then 7 else (s.run.threads[thread]?.map TermStage.left).getD 0

/-- A thread waits for a lock that another holds. -/
def isBlocked (hash : Bytes → ℕ) (s : StripedRun) (thread : ℕ) : Bool :=
  match s.queued[thread]? with
  | some call => (s.stripes (stripeOf hash call.2.key)).isSome
  | none => s.run.threads[thread]?.any TermStage.waits && s.run.holder.isSome

end StripedRun

/-! ### What a step of a thread can do -/

namespace TermRun

variable {s : TermRun} {thread : ℕ} {ok : Bool} {stage : TermStage} {name : Bytes} {record : Record}

/-- A thread goes on from one stage to another, with the same call, on which it has decided where it
had, or has found nothing newer. -/
structure GoesOn (s t : TermRun) (thread : ℕ) (stage new : TermStage) : Prop where
  threads : t.threads = s.threads.insert thread new
  table : new.table = stage.table
  call : new.call = stage.call
  decided : ∀ name record, new.decided = some (name, record) → t.store = s.store ∧
    (stage.decided = some (name, record) ∨ isOvertaken (s.family name) record = false)

theorem GoesOn.undecided {t : TermRun} {new : TermStage}
    (hthreads : t.threads = s.threads.insert thread new) (htable : new.table = stage.table)
    (hcall : new.call = stage.call) (hnone : new.decided = none) :
    ∃ new, s.GoesOn t thread stage new := by
  refine ⟨new, hthreads, htable, hcall, fun name record hdecided => ?_⟩
  rw [hnone] at hdecided
  cases hdecided

/-- Where a step takes a thread: it is stopped by the mutex, is done, or goes on. -/
theorem advance_threads (s : TermRun) (thread : ℕ) (ok : Bool) (stage : TermStage) :
    s.advance thread ok stage = s ∨
      (s.advance thread ok stage).threads = s.threads.erase thread ∨
      ∃ new, s.GoesOn (s.advance thread ok stage) thread stage new := by
  cases stage with
  | reading name record =>
    rw [advance]
    split_ifs with h
    · exact .inr (.inl rfl)
    · obtain ⟨-, hnewer⟩ := not_or.mp h
      refine .inr (.inr ⟨_, rfl, rfl, rfl, fun other record' hcall => ⟨rfl, .inr ?_⟩⟩)
      obtain ⟨rfl, rfl⟩ := Prod.mk.inj (Option.some.inj hcall)
      exact Bool.eq_false_iff.mpr hnewer
  | comparing name record =>
    rw [advance]
    split_ifs
    all_goals exact .inr (.inr ⟨_, rfl, rfl, rfl, fun _ _ hcall => ⟨rfl, .inl hcall⟩⟩)
  | putting name record =>
    cases ok <;> exact .inr (.inl rfl)
  | waiting name record =>
    rw [advance]
    split_ifs
    · exact .inr (.inr ⟨_, rfl, rfl, rfl, fun _ _ hcall => ⟨rfl, .inl hcall⟩⟩)
    · exact .inl rfl
  | rechecking name record =>
    exact .inr (.inr ⟨_, rfl, rfl, rfl, fun _ _ hcall => ⟨rfl, .inl hcall⟩⟩)
  | batching name record raised =>
    cases raised <;> cases ok
    case true.true => exact .inr (.inr (GoesOn.undecided rfl rfl rfl rfl))
    all_goals exact .inr (.inl rfl)
  | storing name record => exact .inr (.inl rfl)
  | walking name file rest carried records held =>
    cases rest <;> exact .inr (.inr (GoesOn.undecided rfl rfl rfl rfl))
  | queueing name file carried records held =>
    rw [advance]
    split_ifs
    · exact .inr (.inr (GoesOn.undecided rfl rfl rfl rfl))
    · exact .inl rfl
  | collecting name file carried records held =>
    rw [advance]
    split_ifs
    · unfold raised
      split_ifs
      · exact .inr (.inl rfl)
      all_goals exact .inr (.inr (GoesOn.undecided rfl rfl rfl rfl))
    · exact .inr (.inr (GoesOn.undecided rfl rfl rfl rfl))
  | landing name file carried batch records held =>
    cases ok
    · exact .inr (.inl rfl)
    · exact .inr (.inr (GoesOn.undecided rfl rfl rfl rfl))
  | spreading name file terms left records held =>
    cases left with
    | nil =>
      rw [advance]
      unfold raised
      split_ifs
      · exact .inr (.inl rfl)
      all_goals exact .inr (.inr (GoesOn.undecided rfl rfl rfl rfl))
    | cons next left => exact .inr (.inr (GoesOn.undecided rfl rfl rfl rfl))
  | sifting name rest kept =>
    cases rest with
    | nil =>
      rw [advance]
      split_ifs
      · exact .inr (.inl rfl)
      · exact .inr (.inr (GoesOn.undecided rfl rfl rfl rfl))
    | cons next rest => exact .inr (.inr (GoesOn.undecided rfl rfl rfl rfl))
  | ingesting name kept =>
    cases ok <;> exact .inr (.inl rfl)

/-! ### A step is the steps it comes to -/

variable (J : JsonCodec)

theorem getElem?_settle (hold : name ∈ s.store.disk.families) :
    s.store.settle.disk.families[name]? = some (s.family name) := by
  show s.store.disk.families[name]? = some (s.store.disk.families[name]?.getD ∅)
  rw [Std.ExtTreeMap.getElem?_eq_some_getElem hold]
  rfl

/-- A write that something newer is held for leaves it. -/
theorem write_overtaken (hold : name ∈ s.store.disk.families)
    (hnewer : isOvertaken (s.family name) record = true) :
    after (Store.writeRecord {} name record s.store.settle) = s.store.settle := by
  have hany : (s.family name)[Store.storeKey record.key]?.any
      (Record.isNewer · (Record.composeValue record.stamp record.value)) = true := hnewer
  rw [Store.writeRecord_eq (getElem?_settle hold), if_pos hany]
  rfl

/-- A write that nothing newer is held for, made in one step. -/
theorem settle_write (hold : name ∈ s.store.disk.families)
    (hcurrent : isOvertaken (s.family name) record = false) :
    after (Store.writeRecord {} name record s.store.settle) =
      s.store.settle.written name (s.family name) record := by
  have hnewer : ¬(s.family name)[Store.storeKey record.key]?.any
      (Record.isNewer · (Record.composeValue record.stamp record.value)) = true := by
    rw [Bool.not_eq_true]
    exact hcurrent
  rw [Store.writeRecord_eq (getElem?_settle hold), if_neg hnewer]
  rfl

/-- A record that nothing newer is held for is written, in a term its partition has come to. -/
theorem settle_put (hold : name ∈ s.store.disk.families)
    (hcurrent : isOvertaken (s.family name) record = false)
    (hterm : record.stamp.term ≤ s.store.durable (partitionOf record.key)) :
    (s.put name record).settle = s.store.settle.atomicStep J (.write name record) := by
  rw [Store.atomicStep, settle_write hold hcurrent]
  have hle : record.stamp.term ≤ s.store.settle.terms (partitionOf record.key) := hterm
  rw [Store.written, if_pos hle]
  rfl

/-- A record in a newer term is written with the term. -/
theorem settle_batch (hold : name ∈ s.store.disk.families)
    (hcurrent : isOvertaken (s.family name) record = false)
    (hterm : s.store.durable (partitionOf record.key) < record.stamp.term) :
    ({ s.put name record with
      disk := { (s.put name record).disk with
        terms := Function.update s.store.disk.terms (partitionOf record.key)
          (some record.stamp.term) } } : Store).settle =
      s.store.settle.atomicStep J (.write name record) := by
  rw [Store.atomicStep, settle_write hold hcurrent]
  have hlt : ¬record.stamp.term ≤ s.store.settle.terms (partitionOf record.key) := not_le.mpr hterm
  rw [Store.written, if_neg hlt]
  have hterms : (fun partition => ((Function.update s.store.disk.terms (partitionOf record.key)
      (some record.stamp.term)) partition).getD 0) =
        Function.update s.store.durable (partitionOf record.key) record.stamp.term := by
    funext partition
    by_cases hsame : partition = partitionOf record.key
    · subst hsame
      simp
    · rw [Function.update_of_ne hsame, Function.update_of_ne hsame]
      rfl
  unfold Store.settle Store.raiseTerm Store.durable TermRun.put Store.setFamily TermRun.family
  simp only [hterms]
  rfl

/-- The terms a batch has on disk are those of a store that raises them whole. -/
theorem settle_land (h : s.store.Remembers) (hsettled : s.store.Settled) {carried : PartitionTerms}
    {batch : PartitionSet}
    (hbatch : ∀ partition, partition ∈ batch ↔ s.store.terms partition < carried partition) :
    ({ s.store with
      disk := { s.store.disk with
        terms := fun partition =>
          if partition ∈ batch then some (carried partition)
          else s.store.disk.terms partition } } : Store).settle =
      s.store.settle.atomicStep J (.raise carried) := by
  have hraises : ∀ partition, partition ∈ batch ↔
      s.store.settle.terms partition < carried partition := by
    intro partition
    rw [hbatch, hsettled partition]
    rfl
  rw [Store.atomicStep, Store.raiseTerms_eq]
  unfold Store.settle Store.durable Store.raisedTo
  simp only [hraises, after_ok, Store.mk.injEq, true_and, and_true]
  refine ⟨rfl, ?_⟩
  funext partition
  have hnonneg : 0 ≤ s.store.settle.terms partition :=
    (h.nonneg partition).trans_eq (hsettled partition)
  by_cases hlt : s.store.settle.terms partition < carried partition
  · rw [if_pos hlt]
    exact (if_pos ⟨hlt, hnonneg.trans_lt hlt⟩).symm
  · rw [if_neg hlt]
    exact (if_neg fun hboth => hlt hboth.1).symm

/-- **A step of a thread is the steps it comes to.** -/
theorem settle_advance (h : s.Kept) (hold : s.threads[thread]? = some stage)
    (htable : stage.table ∈ s.store.disk.families)
    (hcurrent : ok = true → ∀ name record, stage.makes = some (name, record) →
      isOvertaken (s.family name) record = false) :
    (s.advance thread ok stage).store.settle =
      Machine.run (Store.atomicStep J) s.store.settle (s.effects ok stage) := by
  have hhere := h.stages thread stage hold
  cases stage with
  | reading name record =>
    have hstays : (s.advance thread ok (.reading name record)).store = s.store := by
      rw [advance]
      split_ifs <;> rfl
    rw [hstays, effects]
    split_ifs with hnewer
    · -- the write finds a newer version, and leaves it
      exact (write_overtaken htable hnewer.2).symm
    · rfl
  | comparing name record => 
    rw [advance]
    split_ifs <;> rfl
  | putting name record =>
    cases ok
    · rfl
    · exact settle_put J htable (hcurrent rfl _ _ rfl) hhere.2
  | waiting name record => 
    rw [advance]
    split_ifs <;> rfl
  | rechecking name record => rfl
  | batching name record raised =>
    obtain ⟨-, hsettled, hraised⟩ := hhere
    rw [hsettled] at hraised
    cases ok
    · cases raised <;> rfl
    · cases raised with
      | false => exact settle_put J htable (hcurrent rfl _ _ rfl) (by simpa using hraised)
      | true => exact settle_batch J htable (hcurrent rfl _ _ rfl) (by simpa using hraised)
  | storing name record => rfl
  | walking name file rest carried records held => cases rest <;> rfl
  | queueing name file carried records held => 
    rw [advance]
    split_ifs <;> rfl
  | collecting name file carried records held =>
    rw [advance]
    unfold raised
    split_ifs <;> rfl
  | landing name file carried batch records held =>
    obtain ⟨-, hsettled, hbatch⟩ := hhere
    cases ok
    · rfl
    · have hmem : ∀ partition, partition ∈ batch ↔ s.store.terms partition < carried partition := by
        intro partition
        rw [hbatch, Finset.mem_filter]
        exact and_iff_right (Finset.mem_univ _)
      have hland := settle_land J h.remembers hsettled hmem
      clear hbatch hmem
      rw [advance, effects]
      simp only [if_true]
      rw [Machine.run_cons, Machine.run_nil, ← hland]
      rfl
  | spreading name file terms left records held => 
    cases left with
    | nil =>
      rw [advance]
      unfold raised
      split_ifs <;> rfl
    | cons next left => rfl
  | sifting name rest kept => 
    cases rest with
    | nil =>
      rw [advance]
      split_ifs <;> rfl
    | cons next rest => rfl
  | ingesting name kept =>
    cases ok <;> rfl

/-- A write that is made over a newer version is no write of the machine above, which leaves the
newer one where it is. -/
theorem settle_advance_ne (htable : stage.table ∈ s.store.disk.families)
    (hmakes : stage.makes = some (name, record))
    (hnewer : isOvertaken (s.family name) record = true) :
    (s.advance thread true stage).store.settle ≠
      Machine.run (Store.atomicStep J) s.store.settle (s.effects true stage) := by
  obtain ⟨hput, heffects⟩ : (s.advance thread true stage).store.disk.families =
      s.store.disk.families.insert name ((s.family name).insert (Store.storeKey record.key)
        (Record.composeValue record.stamp record.value)) ∧
      s.effects true stage = [.write name record] := by
    cases stage <;> cases hmakes
    case putting => exact ⟨rfl, rfl⟩
    case batching raised => cases raised <;> exact ⟨rfl, rfl⟩
  have hname : name ∈ s.store.disk.families := by
    cases stage <;> cases hmakes <;> exact htable
  rw [heffects, Machine.run_cons, Machine.run_nil, Store.atomicStep, write_overtaken hname hnewer]
  intro hsame
  obtain ⟨held, hheld, hlater⟩ : ∃ held, (s.family name)[Store.storeKey record.key]? = some held ∧
      Record.isNewer held (Record.composeValue record.stamp record.value) = true := by
    rw [isOvertaken, Option.any_eq_true] at hnewer
    exact hnewer
  have hfamily : (s.store.disk.families.insert name ((s.family name).insert
      (Store.storeKey record.key) (Record.composeValue record.stamp record.value)))[name]? =
        some (s.family name) := by
    rw [← hput]
    exact (congrArg (fun store : Store => store.disk.families[name]?) hsame).trans
      (getElem?_settle hname)
  rw [Std.ExtTreeMap.getElem?_insert_self] at hfamily
  rw [← Option.some.inj hfamily, Std.ExtTreeMap.getElem?_insert_self] at hheld
  rw [← Option.some.inj hheld, Record.isNewer_self] at hlater
  cases hlater

/-! ### What holds between any two steps -/

/-- What a step does to the tables: a thread puts its record, or a file is ingested. -/
theorem families_advance (s : TermRun) (thread : ℕ) (ok : Bool) (stage : TermStage) :
    (s.advance thread ok stage).store.disk.families = s.store.disk.families ∨
      (∃ name record, stage.call = some (name, record) ∧
        (s.advance thread ok stage).store.disk.families = s.store.disk.families.insert name
          ((s.family name).insert (Store.storeKey record.key)
            (Record.composeValue record.stamp record.value))) ∨
      ∃ name kept, stage = .ingesting name kept ∧ ok = true ∧
        (s.advance thread ok stage).store.disk.families = s.store.disk.families.insert name
          (Store.ingest (s.family name) kept) := by
  cases stage with
  | putting name record =>
    cases ok
    · exact .inl rfl
    · exact .inr (.inl ⟨name, record, rfl, rfl⟩)
  | batching name record raised =>
    cases raised <;> cases ok
    case false.true | true.true => exact .inr (.inl ⟨name, record, rfl, rfl⟩)
    all_goals exact .inl rfl
  | ingesting name kept =>
    cases ok
    · exact .inl rfl
    · exact .inr (.inr ⟨name, kept, rfl, rfl, rfl⟩)
  | landing name file carried batch records held => cases ok <;> exact .inl rfl
  | walking name file rest carried records held => cases rest <;> exact .inl rfl
  | rechecking | storing => exact .inl rfl
  | reading | comparing | waiting | queueing =>
    rw [advance]
    split_ifs <;> exact .inl rfl
  | collecting name file carried records held =>
    rw [advance]
    unfold raised
    split_ifs <;> exact .inl rfl
  | spreading name file terms left records held =>
    cases left with
    | nil =>
      rw [advance]
      unfold raised
      split_ifs <;> exact .inl rfl
    | cons next left => exact .inl rfl
  | sifting name rest kept =>
    cases rest with
    | nil =>
      rw [advance]
      split_ifs <;> exact .inl rfl
    | cons next rest => exact .inl rfl

theorem mem_families_advance (hthread : stage.table ∈ s.store.disk.families) :
    name ∈ (s.advance thread ok stage).store.disk.families ↔ name ∈ s.store.disk.families := by
  rcases s.families_advance thread ok stage with hsame | ⟨other, record, hcall, hput⟩ |
    ⟨other, kept, rfl, -, hput⟩
  · rw [hsame]
  · rw [hput, Std.ExtTreeMap.mem_insert, or_iff_right_iff_imp]
    intro heq
    rw [← Std.LawfulEqCmp.eq_of_compare heq, ← TermStage.table_of_call hcall]
    exact hthread
  · rw [hput, Std.ExtTreeMap.mem_insert, or_iff_right_iff_imp]
    intro heq
    rw [← Std.LawfulEqCmp.eq_of_compare heq]
    exact hthread

/-- Nothing newer comes in front of a write but by a write of its key or a file. -/
theorem isOvertaken_advance (hcurrent : isOvertaken (s.family name) record = false)
    (hcall : ∀ other, stage.call = some (name, other) →
      Store.storeKey other.key ≠ Store.storeKey record.key)
    (hfile : ∀ kept, stage = .ingesting name kept → ok = true →
      isOvertaken (Store.ingest (s.family name) kept) record = false) :
    isOvertaken ((s.advance thread ok stage).family name) record = false := by
  -- what a table holds once another is put in its place, or in that of a second table
  have hlook : ∀ (other : Bytes) (held : Family), (s.advance thread ok stage).store.disk.families =
      s.store.disk.families.insert other held →
        (s.advance thread ok stage).family name = if other = name then held else s.family name := by
    intro other held hput
    rw [TermRun.family, hput, Std.ExtTreeMap.getElem?_insert]
    by_cases hsame : other = name
    · simp [hsame]
    · simp [hsame, TermRun.family]
  rcases s.families_advance thread ok stage with hsame | ⟨other, record', hcall', hput⟩ |
    ⟨other, kept, hingesting, hok, hput⟩
  · rw [TermRun.family, hsame]
    exact hcurrent
  · rw [hlook other _ hput]
    split_ifs with hsame
    · subst hsame
      rw [isOvertaken, Std.ExtTreeMap.getElem?_insert, if_neg]
      · exact hcurrent
      · simpa using hcall record' hcall'
    · exact hcurrent
  · rw [hlook other _ hput]
    split_ifs with hsame
    · subst hsame
      exact hfile kept hingesting hok
    · exact hcurrent

end TermRun

namespace StripedRun

variable (hash : Bytes → ℕ)

/-- A call has its table, and past the lock of its stripe it has the lock. -/
structure Locked (s : StripedRun) : Prop where
  run : s.run.Kept
  holds : ∀ (thread : ℕ) (stage : TermStage) (call : WriteCall),
    s.run.threads[thread]? = some stage → stage.call = some call →
      s.stripes (stripeOf hash call.2.key) = some thread
  held : ∀ stripe thread : ℕ, s.stripes stripe = some thread →
    ∃ (stage : TermStage) (call : WriteCall), s.run.threads[thread]? = some stage ∧
      stage.call = some call ∧ stripeOf hash call.2.key = stripe
  tables : ∀ (thread : ℕ) (stage : TermStage), s.run.threads[thread]? = some stage →
    stage.table ∈ s.run.store.disk.families
  queued : ∀ (thread : ℕ) (call : WriteCall), s.queued[thread]? = some call →
    call.1 ∈ s.run.store.disk.families ∧ call.2.stamp.Fits
  apart : ∀ thread ∈ s.queued, thread ∉ s.run.threads

/-- Nothing newer is in front of a write that has compared. -/
def Current (s : StripedRun) : Prop :=
  ∀ (thread : ℕ) (stage : TermStage) (name : Bytes) (record : Record),
    s.run.threads[thread]? = some stage → stage.decided = some (name, record) →
      isOvertaken (s.run.family name) record = false

variable {hash} {s : StripedRun} {thread : ℕ} (J : JsonCodec)

theorem stripes_moves (s : StripedRun) (thread : ℕ) (run : TermRun) (stripe : ℕ) :
    (s.moves thread run).stripes stripe =
      if thread ∉ run.threads ∧ s.stripes stripe = some thread then none else s.stripes stripe :=
  rfl

theorem mem_threads_iff {s : TermRun} :
    thread ∈ s.threads ↔ ∃ stage, s.threads[thread]? = some stage := by
  rw [Std.ExtTreeMap.mem_iff_isSome_getElem?, Option.isSome_iff_exists]

theorem threads_of_stageOf {stage : TermStage} (hstage : s.stageOf thread = some stage) :
    s.run.threads[thread]? = some stage := by
  unfold stageOf at hstage
  split_ifs at hstage
  exact hstage

theorem Locked.stageOf_eq (h : s.Locked hash) (hin : thread ∈ s.run.threads) :
    s.stageOf thread = s.run.threads[thread]? :=
  if_neg fun hqueued => h.apart thread hqueued hin

/-- Where a thread has come to with a step, and where the others are. -/
structure Comes (s t : TermRun) (thread : ℕ) (stage : TermStage) : Prop where
  others : ∀ other : ℕ, other ≠ thread → t.threads[other]? = s.threads[other]?
  own : ∀ new, t.threads[thread]? = some new → s.GoesOn t thread stage new

theorem comes_advance (s : TermRun) {thread : ℕ} {ok : Bool} {stage : TermStage}
    (hmoves : s.advance thread ok stage ≠ s) :
    Comes s (s.advance thread ok stage) thread stage := by
  rcases s.advance_threads thread ok stage with hsame | hgone | ⟨new, hgoes⟩
  · exact absurd hsame hmoves
  · refine ⟨fun other hother => ?_, fun new hnew => ?_⟩
    · rw [hgone, Std.ExtTreeMap.getElem?_erase, if_neg (by simpa using hother.symm)]
    · rw [hgone, Std.ExtTreeMap.getElem?_erase_self] at hnew
      cases hnew
  · refine ⟨fun other hother => ?_, fun new' hnew => ?_⟩
    · rw [hgoes.threads, Std.ExtTreeMap.getElem?_insert, if_neg (by simpa using hother.symm)]
    · rw [hgoes.threads, Std.ExtTreeMap.getElem?_insert_self] at hnew
      rw [← Option.some.inj hnew]
      exact hgoes

/-- A thread goes on past the lock of its stripe. -/
theorem Locked.moves (h : s.Locked hash) {stage : TermStage}
    (hthread : s.run.threads[thread]? = some stage) (ok : Bool) :
    (s.moves thread (s.run.advance thread ok stage)).Locked hash := by
  have hin : thread ∈ s.run.threads := mem_threads_iff.mpr ⟨stage, hthread⟩
  have hnotqueued : thread ∉ s.queued := fun hqueued => h.apart thread hqueued hin
  have htable := h.tables thread stage hthread
  by_cases hmoves : s.run.advance thread ok stage = s.run
  · have hsame : s.moves thread (s.run.advance thread ok stage) = s := by
      rw [hmoves, StripedRun.moves]
      simp [hin]
    rw [hsame]
    exact h
  have hcomes := comes_advance s.run hmoves
  refine ⟨(h.run.advance hthread ok).kept, ?_, ?_, ?_, ?_, ?_⟩
  · intro other new call hother hcall
    have hstripe : s.stripes (stripeOf hash call.2.key) = some other := by
      by_cases hsame : other = thread
      · subst hsame
        exact h.holds other stage call hthread ((hcomes.own new hother).call.symm.trans hcall)
      · exact h.holds other new call ((hcomes.others other hsame).symm.trans hother) hcall
    refine (if_neg ?_).trans hstripe
    rintro ⟨hgone, hmine⟩
    obtain rfl : other = thread := Option.some.inj (hstripe.symm.trans hmine)
    exact hgone (mem_threads_iff.mpr ⟨new, hother⟩)
  · intro stripe other hstripe
    obtain ⟨hkept, hbefore⟩ : ¬(thread ∉ (s.run.advance thread ok stage).threads ∧
        s.stripes stripe = some thread) ∧ s.stripes stripe = some other := by
      rw [stripes_moves] at hstripe
      split_ifs at hstripe with hgone
      exact ⟨hgone, hstripe⟩
    obtain ⟨stage', call, hother, hcall, hhere⟩ := h.held stripe other hbefore
    by_cases hsame : other = thread
    · subst hsame
      obtain rfl : stage = stage' := Option.some.inj (hthread.symm.trans hother)
      have hstill : other ∈ (s.run.advance other ok stage).threads := by
        by_contra hgone
        exact hkept ⟨hgone, hbefore⟩
      obtain ⟨new, hnew⟩ := mem_threads_iff.mp hstill
      exact ⟨new, call, hnew, (hcomes.own new hnew).call.trans hcall, hhere⟩
    · exact ⟨stage', call, (hcomes.others other hsame).trans hother, hcall, hhere⟩
  · intro other new hother
    refine (TermRun.mem_families_advance htable).mpr ?_
    by_cases hsame : other = thread
    · subst hsame
      rw [(hcomes.own new hother).table]
      exact htable
    · exact h.tables other new ((hcomes.others other hsame).symm.trans hother)
  · intro other call hother
    obtain ⟨hmem, hfits⟩ := h.queued other call hother
    exact ⟨(TermRun.mem_families_advance htable).mpr hmem, hfits⟩
  · intro other hother hmem
    have hne : other ≠ thread := by
      rintro rfl
      exact hnotqueued hother
    obtain ⟨new, hnew⟩ := mem_threads_iff.mp hmem
    have hbefore := (hcomes.others other hne).symm.trans hnew
    exact h.apart other hother (mem_threads_iff.mpr ⟨new, hbefore⟩)

/-- Nothing newer comes in front of a write that has compared, where a file brings nothing. -/
theorem Current.moves (hcurrent : s.Current) (h : s.Locked hash) {stage : TermStage} {ok : Bool}
    (hthread : s.run.threads[thread]? = some stage)
    (hfile : ¬s.Overtakes (.of (.go thread ok))) :
    (s.moves thread (s.run.advance thread ok stage)).Current := by
  intro other new name record hother hdecided
  change (s.run.advance thread ok stage).threads[other]? = some new at hother
  show isOvertaken ((s.run.advance thread ok stage).family name) record = false
  by_cases hmoves : s.run.advance thread ok stage = s.run
  · rw [hmoves] at hother ⊢
    exact hcurrent other new name record hother hdecided
  have hcomes := comes_advance s.run hmoves
  by_cases hsame : other = thread
  · subst hsame
    obtain ⟨hstore, hbefore⟩ := (hcomes.own new hother).decided name record hdecided
    rw [TermRun.family, hstore]
    exact hbefore.elim (hcurrent other stage name record hthread) id
  · have hbefore := (hcomes.others other hsame).symm.trans hother
    refine TermRun.isOvertaken_advance (hcurrent other new name record hbefore hdecided) ?_ ?_
    · -- two threads with records of one key would both have its stripe
      intro record' hcall heq
      have hmine := h.holds thread stage _ hthread hcall
      have hother := h.holds other new _ hbefore (TermStage.call_of_decided hdecided)
      unfold stripeOf at hmine hother
      rw [heq] at hmine
      exact hsame (Option.some.inj (hother.symm.trans hmine))
    · rintro kept rfl rfl
      rw [← Bool.not_eq_true]
      intro hnewer
      refine hfile ⟨name, kept, ?_, other, new, record, hbefore, hdecided, hnewer⟩
      rw [h.stageOf_eq (mem_threads_iff.mpr ⟨_, hthread⟩), hthread]

/-- A thread comes in, with the lock of its stripe where it has a call. -/
theorem Locked.arrives (h : s.Locked hash) (hnew : thread ∉ s.run.threads) {new : TermStage}
    (hkept : (s.run.comes thread new).Kept) (htable : new.table ∈ s.run.store.disk.families)
    {queued : Std.ExtTreeMap ℕ WriteCall} {stripes : ℕ → Option ℕ}
    (hqueued : ∀ (other : ℕ) (call : WriteCall), queued[other]? = some call →
      other ≠ thread ∧ s.queued[other]? = some call)
    (hstripes : ∀ stripe other, stripes stripe = some other ↔ s.stripes stripe = some other ∨
      other = thread ∧ ∃ call, new.call = some call ∧ stripeOf hash call.2.key = stripe) :
    ({ run := s.run.comes thread new, queued, stripes } : StripedRun).Locked hash := by
  have hothers : ∀ other : ℕ, other ≠ thread →
      (s.run.comes thread new).threads[other]? = s.run.threads[other]? :=
    fun other hother => TermRun.getElem?_threads_comes hother
  have hself : (s.run.comes thread new).threads[thread]? = some new := TermRun.getElem?_threads_self
  refine ⟨hkept, ?_, ?_, ?_, ?_, ?_⟩
  · intro other stage call hother hcall
    refine (hstripes _ other).mpr ?_
    by_cases hsame : other = thread
    · subst hsame
      obtain rfl := Option.some.inj (hself.symm.trans hother)
      exact .inr ⟨rfl, call, hcall, rfl⟩
    · exact .inl (h.holds other stage call ((hothers other hsame).symm.trans hother) hcall)
  · intro stripe other hstripe
    rcases (hstripes stripe other).mp hstripe with hbefore | ⟨rfl, call, hcall, hhere⟩
    · obtain ⟨stage, call, hother, hcall, hhere⟩ := h.held stripe other hbefore
      have hne : other ≠ thread := by
        rintro rfl
        exact hnew (mem_threads_iff.mpr ⟨stage, hother⟩)
      exact ⟨stage, call, (hothers other hne).trans hother, hcall, hhere⟩
    · exact ⟨new, call, hself, hcall, hhere⟩
  · intro other stage hother
    by_cases hsame : other = thread
    · subst hsame
      obtain rfl := Option.some.inj (hself.symm.trans hother)
      exact htable
    · exact h.tables other stage ((hothers other hsame).symm.trans hother)
  · exact fun other call hother => h.queued other call (hqueued other call hother).2
  · intro other hother hmem
    obtain ⟨call, hcall⟩ := Option.isSome_iff_exists.mp
      (Std.ExtTreeMap.mem_iff_isSome_getElem?.mp hother)
    obtain ⟨hne, hbefore⟩ := hqueued other call hcall
    obtain ⟨stage, hstage⟩ := mem_threads_iff.mp hmem
    refine h.apart other ?_ (mem_threads_iff.mpr ⟨stage, (hothers other hne).symm.trans hstage⟩)
    rw [Std.ExtTreeMap.mem_iff_isSome_getElem?, hbefore]
    rfl

/-- A thread takes the lock of its stripe. -/
theorem Locked.takes (h : s.Locked hash) {name : Bytes} {record : Record}
    (hqueued : s.queued[thread]? = some (name, record))
    (hfree : s.stripes (stripeOf hash record.key) = none) :
    ({ run := s.run.comes thread (.reading name record)
       queued := s.queued.erase thread
       stripes := Function.update s.stripes (stripeOf hash record.key) (some thread) } :
      StripedRun).Locked hash := by
  have hin : thread ∈ s.queued := by
    rw [Std.ExtTreeMap.mem_iff_isSome_getElem?, hqueued]
    rfl
  have hnew := h.apart thread hin
  obtain ⟨htable, hfits⟩ := h.queued thread _ hqueued
  have hkept : (s.run.comes thread (.reading name record)).Kept := by
    have hout : s.run.threads[thread]?.any TermStage.holds = false := by
      rw [Std.ExtTreeMap.getElem?_eq_none hnew]
      rfl
    have hstage : s.run.store.AtStage (.reading name record) := hfits
    exact (h.run.comes hout rfl hstage).kept
  refine h.arrives hnew hkept htable ?_ ?_
  · intro other call hother
    rw [Std.ExtTreeMap.getElem?_erase] at hother
    split_ifs at hother with hsame
    exact ⟨fun heq => hsame (by simp [heq]), hother⟩
  · intro stripe other
    by_cases hsame : stripe = stripeOf hash record.key
    · subst hsame
      simp [hfree, TermStage.call, eq_comm]
    · simp only [TermStage.call, Function.update_of_ne hsame, Option.some.injEq, exists_eq_left']
      exact (or_iff_left fun hother => hsame hother.2.symm).symm

theorem isIdle_iff : s.isIdle = true ↔ s.run.threads = ∅ ∧ s.queued = ∅ := by
  rw [isIdle, Bool.and_eq_true, Std.ExtTreeMap.isEmpty_iff, Std.ExtTreeMap.isEmpty_iff]

/-- What is done to the tables is done while no thread is in a call. -/
theorem Locked.idle (h : s.Locked hash) (hidle : s.isIdle = true) {run : TermRun} (hrun : run.Kept)
    (hthreads : run.threads = s.run.threads) : ({ s with run } : StripedRun).Locked hash := by
  obtain ⟨hnone, hempty⟩ := isIdle_iff.mp hidle
  have hnothing : ∀ (thread : ℕ) (stage : TermStage), run.threads[thread]? ≠ some stage := by
    intro thread stage
    rw [hthreads, hnone]
    simp
  refine ⟨hrun, fun thread stage _ hstage => absurd hstage (hnothing thread stage), ?_,
    fun thread stage hstage => absurd hstage (hnothing thread stage), ?_, ?_⟩
  · intro stripe thread hstripe
    obtain ⟨stage, call, hthread, -⟩ := h.held stripe thread hstripe
    rw [← hthreads] at hthread
    exact absurd hthread (hnothing thread stage)
  · intro thread call hcall
    change s.queued[thread]? = some call at hcall
    rw [hempty] at hcall
    simp at hcall
  · intro thread hthread
    change thread ∈ s.queued at hthread
    rw [hempty] at hthread
    simp at hthread

/-- A process that starts has no thread in a call. -/
theorem locked_alone (hash : Bytes → ℕ) {run : TermRun} (hrun : run.Kept)
    (hthreads : run.threads = ∅) : ({ run } : StripedRun).Locked hash := by
  have hnothing : ∀ (thread : ℕ) (stage : TermStage), run.threads[thread]? ≠ some stage := by
    intro thread stage
    rw [hthreads]
    simp
  refine ⟨hrun, fun thread stage _ hstage => absurd hstage (hnothing thread stage), ?_,
    fun thread stage hstage => absurd hstage (hnothing thread stage), ?_, ?_⟩
  · exact fun _ _ hstripe => absurd hstripe (Option.some_ne_none _).symm
  · intro thread call hcall
    simp at hcall
  · intro thread hthread
    simp at hthread

theorem Locked.moves_gone (h : s.Locked hash) (hnone : s.run.threads[thread]? = none) :
    s.moves thread s.run = s := by
  have hstripes : (s.moves thread s.run).stripes = s.stripes := by
    funext stripe
    rw [stripes_moves]
    refine if_neg fun hgone => ?_
    obtain ⟨stage, -, hstage, -⟩ := h.held stripe thread hgone.2
    rw [hnone] at hstage
    cases hstage
  exact congrArg (StripedRun.mk s.run s.queued) hstripes

/-- What a thread's next step does: it stays where it is, takes the lock of its stripe, or goes on
past it. -/
theorem Locked.go_cases (h : s.Locked hash) (thread : ℕ) (ok : Bool) :
    (s.stageOf thread = none ∧ s.go J hash thread ok = s) ∨
      (∃ name record, s.queued[thread]? = some (name, record) ∧
        s.stripes (stripeOf hash record.key) = none ∧ s.go J hash thread ok =
          { run := s.run.comes thread (.reading name record)
            queued := s.queued.erase thread
            stripes := Function.update s.stripes (stripeOf hash record.key) (some thread) }) ∨
      ∃ stage, s.run.threads[thread]? = some stage ∧ s.stageOf thread = some stage ∧
        s.go J hash thread ok = s.moves thread (s.run.advance thread ok stage) := by
  cases hqueued : s.queued[thread]? with
  | some call =>
    have hin : thread ∈ s.queued := by
      rw [Std.ExtTreeMap.mem_iff_isSome_getElem?, hqueued]
      rfl
    by_cases hfree : s.stripes (stripeOf hash call.2.key) = none
    · refine .inr (.inl ⟨call.1, call.2, rfl, hfree, ?_⟩)
      simp [StripedRun.go, hqueued, hfree]
    · refine .inl ⟨if_pos hin, ?_⟩
      simp [StripedRun.go, hqueued, hfree]
  | none =>
    have hout : thread ∉ s.queued := by
      rw [Std.ExtTreeMap.mem_iff_isSome_getElem?, hqueued]
      exact Bool.false_ne_true
    cases hthread : s.run.threads[thread]? with
    | none =>
      refine .inl ⟨(if_neg hout).trans hthread, ?_⟩
      simp only [StripedRun.go, hqueued, TermRun.step, hthread]
      exact h.moves_gone hthread
    | some stage =>
      refine .inr (.inr ⟨stage, rfl, (if_neg hout).trans hthread, ?_⟩)
      simp only [StripedRun.go, hqueued, TermRun.step, hthread]

/-- What a clear deletes takes no term of a store, and leaves nothing newer behind. -/
theorem kept_clear {run : TermRun} (h : run.Kept) (name : Bytes) (keys : List Bytes) :
    (run.withStore
      (run.store.setFamily name (Store.eraseAll (run.family name) keys))).Kept := by
  have hrise : run.store.Rises
      (run.store.setFamily name (Store.eraseAll (run.family name) keys)) := fun _ => le_rfl
  refine ⟨⟨?_, h.remembers.memory, h.remembers.nonneg⟩, h.settled, h.holding,
    fun thread stage hstage => (h.stages thread stage hstage).mono hrise fun _ => ⟨rfl, rfl⟩⟩
  intro other family key value partition hfamily hvalue hheld
  change (run.store.disk.families.insert name _)[other]? = some family at hfamily
  rw [Std.ExtTreeMap.getElem?_insert] at hfamily
  split_ifs at hfamily with hsame
  · rw [← Option.some.inj hfamily, Store.getElem?_eraseAll] at hvalue
    split_ifs at hvalue
    cases hbefore : run.store.disk.families[name]? with
    | none => simp [TermRun.family, hbefore] at hvalue
    | some before =>
      rw [TermRun.family, hbefore] at hvalue
      exact h.remembers.records name before key value partition hbefore hvalue hheld
  · exact h.remembers.records other family key value partition hfamily hvalue hheld

theorem Locked.step (h : s.Locked hash) (e : StripedEvent) : (s.step J hash e).Locked hash := by
  cases e with
  | clear name keys =>
    rw [StripedRun.step, StripedRun.clear]
    split_ifs with hname
    · have htables : ∀ other, other ∈ (s.run.store.disk.families.insert name
          (Store.eraseAll (s.run.family name) keys)) ↔ other ∈ s.run.store.disk.families := by
        intro other
        rw [Std.ExtTreeMap.mem_insert, or_iff_right_iff_imp]
        intro heq
        rw [← Std.LawfulEqCmp.eq_of_compare heq]
        exact hname
      exact ⟨kept_clear h.run name keys, h.holds, h.held,
        fun thread stage hstage => (htables _).mpr (h.tables thread stage hstage),
        fun thread call hcall => ⟨(htables _).mpr (h.queued thread call hcall).1,
          (h.queued thread call hcall).2⟩, h.apart⟩
    · exact h
  | of e =>
    have hrun : (s.run.step J e).Kept := (h.run.step J e).kept
    cases e
    case create | delete | merge =>
      rw [StripedRun.step, alone]
      split_ifs with hidle
      · refine h.idle hidle hrun ?_
        rw [TermRun.step]
        split_ifs <;> rfl
      · exact h
    case write thread name record hfits =>
      rw [StripedRun.step]
      split_ifs with hnew
      · obtain ⟨hnew, -, hname⟩ := hnew
        refine ⟨h.run, h.holds, h.held, h.tables, fun other call hcall => ?_,
          fun other hother => ?_⟩
        · change (s.queued.insert thread (name, record))[other]? = some call at hcall
          rw [Std.ExtTreeMap.getElem?_insert] at hcall
          split_ifs at hcall
          · rw [← Option.some.inj hcall]
            exact ⟨hname, hfits⟩
          · exact h.queued other call hcall
        · rcases Std.ExtTreeMap.mem_insert.mp hother with heq | hbefore
          · rw [← Std.LawfulEqCmp.eq_of_compare heq]
            exact hnew
          · exact h.apart other hbefore
      · exact h
    case imports thread name file =>
      rw [StripedRun.step]
      split_ifs with hqueued
      · exact h
      · rw [TermRun.step] at hrun ⊢
        split_ifs at hrun ⊢ with hnew
        · refine h.arrives hnew.1 hrun hnew.2.1 (fun other call hcall => ⟨?_, hcall⟩) fun _ _ => ?_
          · rintro rfl
            refine hqueued ?_
            rw [Std.ExtTreeMap.mem_iff_isSome_getElem?, hcall]
            rfl
          · simp [TermStage.call]
        · exact h
    case go thread ok =>
      rw [StripedRun.step]
      rcases h.go_cases J thread ok with ⟨-, hstays⟩ | ⟨name, record, hqueued, hfree, hgoes⟩ |
        ⟨stage, hthread, -, hgoes⟩
      · rw [hstays]
        exact h
      · rw [hgoes]
        exact h.takes hqueued hfree
      · rw [hgoes]
        exact h.moves hthread ok
    case stop => exact locked_alone hash hrun rfl

theorem locked_start : (start J).Locked hash := locked_alone hash (TermRun.kept_start J) rfl

/-- A thread that comes in has compared nothing yet. -/
theorem Current.arrives (hcurrent : s.Current) {new : TermStage} (hnone : new.decided = none)
    {queued : Std.ExtTreeMap ℕ WriteCall} {stripes : ℕ → Option ℕ} :
    ({ run := s.run.comes thread new, queued, stripes } : StripedRun).Current := by
  intro other stage name record hother hdecided
  by_cases hsame : other = thread
  · subst hsame
    obtain rfl := Option.some.inj (TermRun.getElem?_threads_self.symm.trans hother)
    rw [hnone] at hdecided
    cases hdecided
  · exact hcurrent other stage name record
      ((TermRun.getElem?_threads_comes hsame).symm.trans hother) hdecided

theorem current_alone {run : TermRun} (hthreads : run.threads = ∅)
    {queued : Std.ExtTreeMap ℕ WriteCall} {stripes : ℕ → Option ℕ} :
    ({ run, queued, stripes } : StripedRun).Current := by
  intro thread stage name record hthread
  change run.threads[thread]? = some stage at hthread
  rw [hthreads] at hthread
  simp at hthread

theorem Current.step (hcurrent : s.Current) (h : s.Locked hash) {e : StripedEvent}
    (hfile : ¬s.Overtakes e) : (s.step J hash e).Current := by
  cases e with
  | clear name keys =>
    rw [StripedRun.step, StripedRun.clear]
    split_ifs with hname
    · intro other stage name' record hother hdecided
      have hbefore := hcurrent other stage name' record hother hdecided
      show isOvertaken (((s.run.store.disk.families.insert name _)[name']?).getD ∅) record = false
      rw [Std.ExtTreeMap.getElem?_insert]
      split_ifs with hsame
      · rw [Std.LawfulEqCmp.eq_of_compare hsame, Option.getD_some, isOvertaken,
          Store.getElem?_eraseAll]
        split_ifs
        · rfl
        · exact hbefore
      · exact hbefore
    · exact hcurrent
  | of e =>
    cases e
    case create | delete | merge =>
      rw [StripedRun.step, alone]
      split_ifs with hidle
      · refine current_alone ?_
        rw [TermRun.step]
        split_ifs <;> exact (isIdle_iff.mp hidle).1
      · exact hcurrent
    case write =>
      rw [StripedRun.step]
      split_ifs <;> exact hcurrent
    case imports =>
      rw [StripedRun.step]
      split_ifs
      · exact hcurrent
      · rw [TermRun.step]
        split_ifs
        · exact hcurrent.arrives rfl
        · exact hcurrent
    case go thread ok =>
      rw [StripedRun.step]
      rcases h.go_cases J thread ok with ⟨-, hstays⟩ | ⟨name, record, -, -, hgoes⟩ |
        ⟨stage, hthread, -, hgoes⟩
      · rw [hstays]
        exact hcurrent
      · rw [hgoes]
        exact hcurrent.arrives rfl
      · rw [hgoes]
        exact hcurrent.moves h hthread hfile
    case stop => exact current_alone rfl

/-- A store that no thread is in the middle of a call of has caught up. -/
theorem settle_idle {run : TermRun} (h : run.Kept) (hthreads : run.threads = ∅) :
    run.store.settle = run.store := by
  have hfree : run.holder = none := by
    cases hholder : run.holder with
    | none => rfl
    | some thread =>
      have hin := (h.holding thread).mp hholder
      rw [hthreads] at hin
      simp at hin
  have hterms : run.store.durable = run.store.terms :=
    (funext fun partition => h.settled hfree partition).symm
  rw [Store.settle, hterms]

/-- **A step is the steps it comes to.** -/
theorem settle_step (h : s.Locked hash) {e : StripedEvent} (hkeeps : ¬s.Undoes e) :
    (s.step J hash e).run.store.settle =
      Machine.run (Store.atomicStep J) s.run.store.settle (s.effects e) := by
  cases e with
  | clear name keys =>
    rw [StripedRun.step, StripedRun.clear, StripedRun.effects]
    split_ifs <;> rfl
  | of e =>
    have hrun : (s.run.step J e).Kept := (h.run.step J e).kept
    cases e
    case create | delete | merge =>
      rw [StripedRun.step, alone, StripedRun.effects, aloneEffects]
      split_ifs with hidle
      · obtain ⟨hnone, -⟩ := isIdle_iff.mp hidle
        rw [settle_idle h.run hnone]
        rw [TermRun.step] at hrun ⊢
        have hempty : s.run.threads.isEmpty = true := by
          rw [hnone]
          rfl
        rw [if_pos hempty] at hrun ⊢
        exact settle_idle hrun hnone
      · rfl
    case write =>
      rw [StripedRun.step]
      split_ifs <;> rfl
    case imports =>
      rw [StripedRun.step]
      split_ifs
      · rfl
      · rw [TermRun.step]
        split_ifs <;> rfl
    case go thread ok =>
      rw [StripedRun.step, StripedRun.effects]
      rcases h.go_cases J thread ok with ⟨hstage, hstays⟩ | ⟨name, record, hqueued, -, hgoes⟩ |
        ⟨stage, hthread, hstage, hgoes⟩
      · rw [hstays, hstage]
        rfl
      · have hin : thread ∈ s.queued := by
          rw [Std.ExtTreeMap.mem_iff_isSome_getElem?, hqueued]
          rfl
        rw [hgoes, stageOf, if_pos hin]
        rfl
      · rw [hgoes, hstage]
        refine TermRun.settle_advance J h.run hthread (h.tables thread stage hthread)
          fun hok name record hmakes => ?_
        subst hok
        rw [← Bool.not_eq_true]
        exact fun hnewer => hkeeps ⟨stage, name, record, hstage, hmakes, hnewer⟩
    case stop => exact settle_idle hrun rfl

/-- A step is the steps it comes to only where it undoes nothing. -/
theorem settle_step_iff (h : s.Locked hash) (e : StripedEvent) :
    (s.step J hash e).run.store.settle =
      Machine.run (Store.atomicStep J) s.run.store.settle (s.effects e) ↔ ¬s.Undoes e := by
  refine ⟨fun hsame hundoes => ?_, settle_step J h⟩
  cases e with
  | clear name keys => exact hundoes
  | of e =>
    cases e
    case go thread ok =>
      cases ok
      · exact hundoes
      · obtain ⟨stage, name, record, hstage, hmakes, hnewer⟩ := hundoes
        rcases h.go_cases J thread true with ⟨hnone, -⟩ | ⟨name, record, hqueued, -, -⟩ |
          ⟨stage', hthread, hstage', hgoes⟩
        · rw [hstage] at hnone
          cases hnone
        · have hin : thread ∈ s.queued := by
            rw [Std.ExtTreeMap.mem_iff_isSome_getElem?, hqueued]
            rfl
          rw [stageOf, if_pos hin] at hstage
          cases hstage
        · obtain rfl := Option.some.inj (hstage'.symm.trans hstage)
          rw [StripedRun.step, StripedRun.effects, hgoes, hstage] at hsame
          exact TermRun.settle_advance_ne J (h.tables thread stage' hthread) hmakes hnewer hsame
    all_goals exact hundoes

/-- A write that has compared is in front of nothing newer, so that it undoes nothing. -/
theorem Current.not_undoes (hcurrent : s.Current) (e : StripedEvent) :
    ¬s.Undoes e := by
  intro hundoes
  cases e with
  | clear name keys => exact hundoes
  | of e =>
    cases e
    case go thread ok =>
      cases ok
      · exact hundoes
      · obtain ⟨stage, name, record, hstage, hmakes, hnewer⟩ := hundoes
        have hthread := threads_of_stageOf hstage
        have hdecided : stage.decided = some (name, record) := by
          cases stage <;> cases hmakes <;> rfl
        rw [hcurrent thread stage name record hthread hdecided] at hnewer
        cases hnewer
    all_goals exact hundoes

/-! ### What a thread returns from -/

/-- A step of a thread makes the writes it returns from, or will return from. -/
theorem made_advance (run : TermRun) (thread : ℕ) (ok : Bool) (stage : TermStage)
    (hthread : run.threads[thread]? = some stage) :
    stage.made.toList ++ (run.effects ok stage).filterMap AtomicEvent.call =
      run.returns ok stage ++
        (((run.advance thread ok stage).threads[thread]?).bind TermStage.made).toList := by
  have hcomes : ∀ (other : TermRun) (new : TermStage),
      (other.comes thread new).threads[thread]? = some new :=
    fun _ _ => TermRun.getElem?_threads_self
  have hleaves : ∀ other : TermRun, (other.leaves thread).threads[thread]? = none :=
    fun _ => Std.ExtTreeMap.getElem?_erase_self
  cases stage with
  | reading name record =>
    cases ok
    · simp [TermRun.advance, TermRun.effects, TermRun.returns, hleaves, TermStage.made]
    · by_cases hnewer : isOvertaken (run.family name) record = true
      · have hany := hnewer
        unfold isOvertaken at hany
        simp [TermRun.advance, TermRun.effects, TermRun.returns, hleaves, TermStage.made, hany,
          hnewer, AtomicEvent.call]
      · have hany := hnewer
        unfold isOvertaken at hany
        simp [TermRun.advance, TermRun.effects, TermRun.returns, hcomes, TermStage.made, hany,
          hnewer]
  | putting name record =>
    cases ok <;>
      simp [TermRun.advance, TermRun.effects, TermRun.returns, hleaves, TermStage.made,
        AtomicEvent.call]
  | batching name record raised =>
    cases ok <;> cases raised <;>
      simp [TermRun.advance, TermRun.effects, TermRun.returns, hleaves, hcomes, TermStage.made,
        AtomicEvent.call]
  | storing name record =>
    simp [TermRun.advance, TermRun.effects, TermRun.returns, hleaves, TermStage.made]
  | landing name file carried batch records held =>
    cases ok <;>
      simp [TermRun.advance, TermRun.effects, TermRun.returns, hleaves, hcomes, TermStage.made,
        AtomicEvent.call]
  | ingesting name kept =>
    cases ok <;>
      simp [TermRun.advance, TermRun.effects, TermRun.returns, hleaves, TermStage.made,
        AtomicEvent.call]
  | walking name file rest carried records held =>
    cases rest <;>
      simp [TermRun.advance, TermRun.effects, TermRun.returns, hcomes, TermStage.made]
  | rechecking name record =>
    simp [TermRun.advance, TermRun.effects, TermRun.returns, hcomes, TermStage.made]
  | comparing | waiting | queueing =>
    rw [TermRun.advance]
    split_ifs <;>
      simp [TermRun.effects, TermRun.returns, hcomes, hthread, TermStage.made]
  | collecting name file carried records held =>
    simp only [TermRun.advance, TermRun.raised]
    split_ifs <;>
      simp [TermRun.effects, TermRun.returns, hcomes, hleaves, TermStage.made]
  | spreading name file terms left records held =>
    cases left with
    | nil =>
      simp only [TermRun.advance, TermRun.raised]
      split_ifs <;>
        simp [TermRun.effects, TermRun.returns, hcomes, hleaves, TermStage.made]
    | cons next left =>
      simp [TermRun.advance, TermRun.effects, TermRun.returns, hcomes, TermStage.made]
  | sifting name rest kept =>
    cases rest with
    | nil =>
      rw [TermRun.advance]
      split_ifs <;>
        simp [TermRun.effects, TermRun.returns, hcomes, hleaves, TermStage.made]
    | cons next rest =>
      simp [TermRun.advance, TermRun.effects, TermRun.returns, hcomes, TermStage.made]

/-! ### Progress -/

theorem left_pos (stage : TermStage) : 0 < stage.left := by
  cases stage <;> simp [TermStage.left]

/-- A step that no lock stops takes a thread nearer to the end of its call. -/
theorem left_advance (run : TermRun) (thread : ℕ) (ok : Bool) (stage : TermStage)
    (hfree : stage.waits = true → run.holder = none) :
    (((run.advance thread ok stage).threads[thread]?).map TermStage.left).getD 0 <
      stage.left := by
  have hcomes : ∀ (other : TermRun) (new : TermStage),
      (other.comes thread new).threads[thread]? = some new :=
    fun _ _ => TermRun.getElem?_threads_self
  have hleaves : ∀ other : TermRun, (other.leaves thread).threads[thread]? = none :=
    fun _ => Std.ExtTreeMap.getElem?_erase_self
  cases stage with
  | reading | comparing =>
    rw [TermRun.advance]
    split_ifs <;> simp [hcomes, hleaves, TermStage.left]
  | putting | ingesting =>
    cases ok <;> simp [TermRun.advance, hleaves, TermStage.left]
  | waiting | queueing =>
    rw [TermRun.advance, if_pos (hfree rfl)]
    simp [hcomes, TermStage.left]
  | rechecking | storing => simp [TermRun.advance, hcomes, hleaves, TermStage.left]
  | batching name record raised =>
    cases ok <;> cases raised <;> simp [TermRun.advance, hcomes, hleaves, TermStage.left]
  | walking name file rest carried records held =>
    cases rest <;> simp [TermRun.advance, hcomes, TermStage.left]
  | collecting name file carried records held =>
    simp only [TermRun.advance, TermRun.raised]
    split_ifs <;> simp [hcomes, hleaves, TermStage.left]
    omega
  | landing name file carried batch records held =>
    cases ok <;> simp [TermRun.advance, hcomes, hleaves, TermStage.left]
  | spreading name file terms rest records held =>
    cases rest with
    | nil =>
      simp only [TermRun.advance, TermRun.raised]
      split_ifs <;> simp [hcomes, hleaves, TermStage.left]
    | cons next rest =>
      simp [TermRun.advance, hcomes, TermStage.left]
  | sifting name rest kept =>
    cases rest with
    | nil =>
      rw [TermRun.advance]
      split_ifs <;> simp [hcomes, hleaves, TermStage.left]
    | cons next rest => simp [TermRun.advance, hcomes, TermStage.left]

theorem left_of_queued {call : WriteCall} (hqueued : s.queued[thread]? = some call) :
    s.left thread = 7 := by
  refine if_pos ?_
  rw [Std.ExtTreeMap.mem_iff_isSome_getElem?, hqueued]
  rfl

theorem left_of_not_queued (hqueued : thread ∉ s.queued) :
    s.left thread = (s.run.threads[thread]?.map TermStage.left).getD 0 :=
  if_neg hqueued

/-- A thread past its stripe's lock waits for nothing but the mutex. -/
theorem Locked.isBlocked_eq (h : s.Locked hash) {stage : TermStage}
    (hthread : s.run.threads[thread]? = some stage) :
    s.isBlocked hash thread = (stage.waits && s.run.holder.isSome) ∧ 0 < s.left thread := by
  have hout : thread ∉ s.queued := fun hin => h.apart thread hin (mem_threads_iff.mpr ⟨_, hthread⟩)
  constructor
  · rw [isBlocked, Std.ExtTreeMap.getElem?_eq_none hout, hthread]
    rfl
  · rw [left_of_not_queued hout, hthread]
    exact left_pos stage

/-- The thread that holds the mutex waits for no lock, nor does one that holds a stripe where nobody
holds the mutex. -/
theorem Locked.exists_unblocked (h : s.Locked hash) (hleft : 0 < s.left thread) :
    ∃ other, 0 < s.left other ∧ s.isBlocked hash other = false := by
  cases hholder : s.run.holder with
  | some other =>
    have hholds := (h.run.holding other).mp hholder
    obtain ⟨stage, hstage, hholds⟩ : ∃ stage, s.run.threads[other]? = some stage ∧
        stage.holds = true := by
      cases hstage : s.run.threads[other]? with
      | none =>
        rw [hstage] at hholds
        cases hholds
      | some stage =>
        rw [hstage] at hholds
        exact ⟨stage, rfl, hholds⟩
    obtain ⟨hblocked, hpos⟩ := h.isBlocked_eq hstage
    refine ⟨other, hpos, ?_⟩
    rw [hblocked]
    cases stage <;> first | rfl | cases hholds
  | none =>
    have hpast : ∀ (other : ℕ) (stage : TermStage), s.run.threads[other]? = some stage →
        0 < s.left other ∧ s.isBlocked hash other = false := by
      intro other stage hstage
      obtain ⟨hblocked, hpos⟩ := h.isBlocked_eq hstage
      rw [hblocked, hholder]
      exact ⟨hpos, Bool.and_false _⟩
    by_cases hblocked : s.isBlocked hash thread = false
    · exact ⟨thread, hleft, hblocked⟩
    · cases hqueued : s.queued[thread]? with
      | none =>
        rw [isBlocked, hqueued, hholder] at hblocked
        simp at hblocked
      | some call =>
        rw [isBlocked, hqueued] at hblocked
        obtain ⟨other, hother⟩ := Option.isSome_iff_exists.mp ((Bool.not_eq_false _).mp hblocked)
        obtain ⟨stage, -, hstage, -⟩ := h.held _ other hother
        exact ⟨other, hpast other stage hstage⟩

/-- A thread that no lock stops is nearer to the end of its call after a step. -/
theorem Locked.left_step (h : s.Locked hash) (hleft : 0 < s.left thread)
    (hfree : s.isBlocked hash thread = false) (ok : Bool) :
    (s.step J hash (.of (.go thread ok))).left thread < s.left thread := by
  rw [StripedRun.step]
  cases hqueued : s.queued[thread]? with
  | some call =>
    rw [isBlocked, hqueued] at hfree
    have hnone : s.stripes (stripeOf hash call.2.key) = none := by simpa using hfree
    have hgoes : (s.go J hash thread ok).left thread = 6 := by
      simp [StripedRun.go, hqueued, hnone, left, TermRun.comes, TermStage.left]
    rw [hgoes, left_of_queued hqueued]
    exact Nat.lt_succ_self 6
  | none =>
    have hout : thread ∉ s.queued := by
      rw [Std.ExtTreeMap.mem_iff_isSome_getElem?, hqueued]
      exact Bool.false_ne_true
    cases hthread : s.run.threads[thread]? with
    | none =>
      rw [left_of_not_queued hout, hthread] at hleft
      exact absurd hleft (lt_irrefl 0)
    | some stage =>
      have hgoes : s.go J hash thread ok = s.moves thread (s.run.advance thread ok stage) := by
        simp only [StripedRun.go, hqueued, TermRun.step, hthread]
      rw [(h.isBlocked_eq hthread).1] at hfree
      have hmutex : stage.waits = true → s.run.holder = none := by
        intro hwaits
        rw [hwaits] at hfree
        simpa using hfree
      rw [hgoes, left_of_not_queued hout, hthread]
      have hafter : (s.moves thread (s.run.advance thread ok stage)).left thread =
          (((s.run.advance thread ok stage).threads[thread]?).map TermStage.left).getD 0 :=
        left_of_not_queued hout
      rw [hafter]
      exact left_advance s.run thread ok stage hmutex

/-- A step of one thread takes no other further from the end of its call. -/
theorem Locked.left_others (h : s.Locked hash) {other : ℕ} (hother : other ≠ thread) (ok : Bool) :
    (s.step J hash (.of (.go thread ok))).left other = s.left other := by
  rw [StripedRun.step]
  rcases h.go_cases J thread ok with ⟨-, hgoes⟩ | ⟨name, record, hqueued, -, hgoes⟩ |
    ⟨stage, hthread, -, hgoes⟩
  · rw [hgoes]
  · rw [hgoes]
    have hmem : other ∈ s.queued.erase thread ↔ other ∈ s.queued := by
      rw [Std.ExtTreeMap.mem_erase]
      exact and_iff_right (by simpa using hother.symm)
    simp only [left, hmem, TermRun.getElem?_threads_comes hother]
  · rw [hgoes]
    have hsame : (s.run.advance thread ok stage).threads[other]? = s.run.threads[other]? := by
      by_cases hmoves : s.run.advance thread ok stage = s.run
      · rw [hmoves]
      · exact (comes_advance s.run hmoves).others other hother
    simp only [left, StripedRun.moves, hsame]

/-! ### What a thread returns from, step by step -/

/-- Between two ends of a process, a thread has made what it returned from, or will return from. -/
theorem made_step (h : s.Locked hash) {e : StripedEvent} (hstop : e ≠ .of .stop) (thread : ℕ) :
    made thread s ++ makes thread s e =
      returns thread s e ++ made thread (s.step J hash e) := by
  have hstays : ∀ t : StripedRun, t.run.threads = s.run.threads →
      made thread s ++ [] = [] ++ made thread t := by
    intro t hthreads
    rw [List.append_nil, List.nil_append, made, made, hthreads]
  have harrives : ∀ (t : StripedRun) (other : ℕ) (new : TermStage), other ∉ s.run.threads →
      new.made = none → t.run.threads = s.run.threads.insert other new →
        made thread s ++ [] = [] ++ made thread t := by
    intro t other new hnew hnone hthreads
    rw [List.append_nil, List.nil_append, made, made, hthreads]
    by_cases hsame : other = thread
    · subst hsame
      rw [Std.ExtTreeMap.getElem?_eq_none hnew, Std.ExtTreeMap.getElem?_insert_self,
        Option.bind_some, hnone]
      rfl
    · rw [Std.ExtTreeMap.getElem?_insert, if_neg (by simpa using hsame)]
  cases e with
  | clear name keys =>
    refine hstays _ ?_
    rw [StripedRun.step, StripedRun.clear]
    split_ifs <;> rfl
  | of e =>
    cases e
    case create | delete | merge =>
      refine hstays _ ?_
      rw [StripedRun.step, alone]
      split_ifs
      · rw [TermRun.step]
        split_ifs <;> rfl
      · rfl
    case write =>
      refine hstays _ ?_
      rw [StripedRun.step]
      split_ifs <;> rfl
    case imports other name file =>
      rw [StripedRun.step]
      split_ifs
      · exact hstays _ rfl
      · rw [TermRun.step]
        split_ifs with hnew
        · exact harrives _ other _ hnew.1 rfl rfl
        · exact hstays _ rfl
    case go other ok =>
      rw [StripedRun.step, makes, returns]
      rcases h.go_cases J other ok with ⟨hstage, hgoes⟩ | ⟨name, record, hqueued, -, hgoes⟩ |
        ⟨stage, hthread, hstage, hgoes⟩
      · rw [hgoes, hstage]
        split_ifs <;> exact hstays _ rfl
      · have hin : other ∈ s.queued := by
          rw [Std.ExtTreeMap.mem_iff_isSome_getElem?, hqueued]
          rfl
        have hnone : s.stageOf other = none := if_pos hin
        rw [hgoes, hnone]
        split_ifs <;> exact harrives _ other _ (h.apart other hin) rfl rfl
      · rw [hgoes, hstage]
        split_ifs with hsame
        · subst hsame
          rw [made, hthread]
          exact made_advance s.run other ok stage hthread
        · by_cases hmoves : s.run.advance other ok stage = s.run
          · rw [hmoves]
            exact hstays _ rfl
          · rw [List.append_nil, List.nil_append, made, made]
            exact congrArg (fun found => (found.bind TermStage.made).toList)
              ((comes_advance s.run hmoves).others thread (Ne.symm hsame)).symm
    case stop => exact absurd rfl hstop

end StripedRun

section

open StripedRun

/-- **A call of `write_record` is one step.** Any number of threads may be in a call, may read, wait
for a lock, write or throw in any order, and files may be ingested, records deleted, tables made and
dropped and processes end between any two of their steps: the store there is, once its terms in
memory have caught up, is at every moment the one that comes of the same calls made whole, one after
the other, unless a write is made over a newer version than its own, and only then not. None is,
unless an import leaves a newer version in front of a write that has compared already. And between
two ends of a process a thread returns from just the writes it made, in their order, the one it had
made before and is yet to return from first; the end of one leaves it none to return from. -/
theorem writes_are_atomic (J : JsonCodec) (hash : Bytes → ℕ) (es : List StripedEvent) :
    ((∀ a b, es = a ++ b → (run (step J hash) (start J) a).run.store.settle =
        run (Store.atomicStep J) (start J).run.store.settle
          (history (step J hash) effects (start J) a)) ↔
      Throughout (step J hash) (fun s e => ¬s.Undoes e) (start J) es) ∧
    (Throughout (step J hash) (fun s e => ¬s.Overtakes e) (start J) es →
      Throughout (step J hash) (fun s e => ¬s.Undoes e) (start J) es) ∧
    (∀ a b, es = a ++ b → .of .stop ∉ b → ∀ thread,
      made thread (run (step J hash) (start J) a) ++
          history (step J hash) (makes thread) (run (step J hash) (start J) a) b =
        history (step J hash) (returns thread) (run (step J hash) (start J) a) b ++
          made thread (run (step J hash) (start J) es)) ∧
    ∀ thread, made thread (run (step J hash) (start J) (es ++ [.of .stop])) = [] := by
  have hkeep : ∀ s e, s.Locked hash ∧ s.Current → ¬s.Overtakes e →
      (step J hash s e).Locked hash ∧ (step J hash s e).Current :=
    fun s e hs hfile => ⟨hs.1.step J e, hs.2.step J hs.1 hfile⟩
  have hstart : (start J).Locked hash ∧ (start J).Current :=
    ⟨locked_start J, current_alone rfl⟩
  refine ⟨?_, fun hfiles => ?_, ?_, fun thread => ?_⟩
  · exact (refines_iff_throughout fun s : StripedRun => s.run.store.settle).trans
      (throughout_congr (I := StripedRun.Locked hash) (fun s e hs _ => hs.step J e)
        (fun s e hs => settle_step_iff J hs e) (locked_start J))
  · exact hfiles.imp hkeep (fun s e hs _ => hs.2.not_undoes e) hstart
  · rintro a b rfl hstop thread
    have hlocked : (run (step J hash) (start J) a).Locked hash :=
      Throughout.invariant (fun s e (hs : s.Locked hash) _ => hs.step J e) (locked_start J)
        (throughout_true _ a)
    have hruns : Throughout (step J hash) (fun _ e => e ≠ .of .stop)
        (run (step J hash) (start J) a) b := by
      refine throughout_of_forall (fun e he => ?_) _
      rintro rfl
      exact hstop he
    rw [run_append]
    exact hruns.conserves (made thread) (I := StripedRun.Locked hash) (fun s e hs _ => hs.step J e)
      (fun s e hs hgoes => made_step J hs hgoes thread) hlocked
  · rw [run_append]
    rfl

/-- **No thread waits for nothing, and none for ever.** In any state that any run gets to where a
thread is in a call, one is that waits for no lock; and a thread that waits for none is nearer to
the end of its call with each step it takes, whatever fails, while the others' steps take it no
further from it. -/
theorem never_deadlocks (J : JsonCodec) (hash : Bytes → ℕ) (es : List StripedEvent) :
    let s := run (step J hash) (start J) es
    (∀ thread, 0 < s.left thread → ∃ other, 0 < s.left other ∧ s.isBlocked hash other = false) ∧
      ∀ (thread : ℕ) (ok : Bool),
        (0 < s.left thread → s.isBlocked hash thread = false →
          (s.step J hash (.of (.go thread ok))).left thread < s.left thread) ∧
        ∀ other ≠ thread, (s.step J hash (.of (.go thread ok))).left other = s.left other := by
  have hlocked : (run (step J hash) (start J) es).Locked hash :=
    Throughout.invariant (fun s e (hs : s.Locked hash) _ => hs.step J e) (locked_start J)
      (throughout_true _ es)
  exact ⟨fun thread hleft => hlocked.exists_unblocked hleft, fun thread ok =>
    ⟨fun hleft hfree => hlocked.left_step J hleft hfree ok,
      fun other hother => hlocked.left_others J hother ok⟩⟩

end

end AsyncDatabase
