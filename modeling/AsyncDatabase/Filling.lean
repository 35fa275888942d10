import AsyncDatabase.Absence
import AsyncDatabase.Bringing
import AsyncDatabase.Holders

/-!
# What a pass says it filled

The fetch of a reconcile pass (`reconcile/reconcile.cpp`) and the rebuild of a node that starts
(`rebuild/rebuild.cpp`), run by any number of nodes while records are written, copied and given up.
A pass walks every table of its share on the nodes that hold it, and says what it filled by which
of its walks were whole. `filled_holds` says when a partition that is said to be filled has in it
whatever a node of the cluster had as the pass began.
-/

namespace AsyncDatabase

open Bytes (ascii)
open Machine Throwing

/-! ### Passes -/

/-- What a pass is: a reconcile over the zones it read, and whether one of them named its tables, or
a rebuild, with the zones still to be asked. -/
inductive FillCourse where
  | reconcile (zones : List (List Bytes)) (declared : Bool)
  | rebuild (zones : List (List Bytes))

inductive FillStage where
  /-- Some node is to name its tables. -/
  | naming
  | fetching (asks : List Share) (walk : Option ShareWalk) (unfilled : PartitionSet)
  /-- What the pass says it filled, but for what its node has cleared down since. -/
  | done (filled : PartitionSet)

structure FillPass where
  course : FillCourse
  stage : FillStage
  held : PartitionSet
  /-- The cluster as the pass began, and what its nodes then held. -/
  among : List Member
  began : Bytes → Store

/-- For each table what each holder is asked for. -/
def sharesFrom (tables : List Bytes) (holders : Std.ExtTreeMap Bytes PartitionSet) : List Share :=
  tables.flatMap fun table =>
    holders.toList.map fun held => { node := held.1, table, partitions := held.2 }

/-- `etcd_cluster::zones`. -/
def readZones (members : List Member) (node zone : Bytes) : List (List Bytes) :=
  if members.length < 2 then [] else zonesOf members node zone

/-- `etcd_cluster::holders`. -/
def readHolders (partitions : PartitionSet) (members : List Member) (node zone : Bytes) :
    Std.ExtTreeMap Bytes PartitionSet :=
  if members.length < 2 then ∅ else holdersOf partitions members node zone

namespace FillPass

/-- The partitions a pass may come to say it filled. -/
def mayFill (p : FillPass) : PartitionSet :=
  match p.course with
  | .reconcile _ declared => if declared then p.held else ∅
  | .rebuild _ => p.held

/-- Holdings and holders are read one after the other, each under the membership of that moment. -/
def listed (node zone : Bytes) (tables : List Bytes) (members others : List Member) (p : FillPass) :
    FillPass :=
  match p.stage, p.course with
  | .naming, .reconcile _ _ =>
    { p with
      held := holdingsOf node members
      stage := .fetching
        (sharesFrom tables (readHolders (holdingsOf node members) others node zone)) none ∅ }
  | _, _ => p

def walking (files : List StoreFile) (ways : ℕ) (p : FillPass) : FillPass :=
  match p.stage with
  | .fetching (wanted :: asks) none unfilled =>
    { p with stage := .fetching asks (some (.start wanted files ways)) unfilled }
  | _ => p

def answered (store : Bytes → Store) (piece : ℕ) (refusal : Option Response) (p : FillPass) :
    FillPass :=
  match p.stage with
  | .fetching asks (some w) unfilled =>
    let source := refusal.elim (.ok (store w.wanted.node)) .error
    { p with stage := .fetching asks (some (w.answered piece source)) unfilled }
  | _ => p

/-- The table and the file that a taker hands over. -/
def handing (piece : ℕ) (p : FillPass) : Option (Bytes × List Store.Carried) :=
  match p.stage with
  | .fetching _ (some w) _ => (w.handing piece).map fun file => (w.wanted.table, file)
  | _ => none

def taken (piece : ℕ) (throws : Bool) (p : FillPass) : FillPass :=
  match p.stage with
  | .fetching asks (some w) unfilled =>
    { p with stage := .fetching asks (some (w.taken piece throws)) unfilled }
  | _ => p

/-- A walk ends once its takers are through. A rebuild leaves a zone that did not give all of a
share. -/
def walked (p : FillPass) : FillPass :=
  match p.stage with
  | .fetching asks (some w) unfilled =>
    if w.transfer.Joined then
      if w.transfer.whole then { p with stage := .fetching asks none unfilled }
      else
        match p.course with
        | .reconcile _ _ => { p with stage := .fetching asks none (unfilled ∪ w.wanted.partitions) }
        | .rebuild _ => { p with stage := .naming }
    else p
  | _ => p

/-- A rebuild that comes to its end has left nothing unfilled: it leaves a zone as soon as it
does. -/
def reported (p : FillPass) : FillPass :=
  match p.stage, p.course with
  | .fetching [] none unfilled, _ => { p with stage := .done (p.mayFill \ unfilled) }
  | .naming, .rebuild [] => { p with stage := .done ∅ }
  | _, _ => p

/-- The node clears records down, and has the partitions they are of no longer filled. -/
def clearedDown (records : List Store.Carried) (p : FillPass) : FillPass :=
  match p.stage with
  | .done filled =>
    { p with stage := .done (filled.filter fun partition =>
        ∀ carried ∈ records, Store.partitionHeld carried.1 ≠ partition) }
  | _ => p

end FillPass

/-- A cluster whose nodes run passes: its stores, who is registered, and the pass of each node. -/
structure Filling where
  copying : Copying
  registered : List Member := []
  pass : Bytes → Option FillPass := fun _ => none

inductive FillEvent where
  | register (members : List Member)
  /-- Records are written, copied and given up, by any node. -/
  | copying (e : CopyingEvent)
  | create (node : Bytes) (table : Table) (stamp : Version)
  /-- A reconcile pass begins under the membership its node has read. -/
  | begin (node : Bytes) (members : List Member)
  | declare (node peer : Bytes)
  | list (node : Bytes) (members others : List Member)
  | rebuild (node : Bytes) (members : List Member)
  /-- The next zone of a rebuild, with the node of it that names its tables. -/
  | fromZone (node : Bytes) (peer : Option Bytes)
  | walk (node : Bytes) (files : List StoreFile) (ways : ℕ)
  | answer (node : Bytes) (piece : ℕ) (refusal : Option Response)
  | take (node : Bytes) (piece : ℕ) (throws : Bool)
  | walked (node : Bytes)
  | report (node : Bytes)

namespace Filling

variable (J : JsonCodec) (zone : Bytes → Bytes)

def store (s : Filling) (node : Bytes) : Store := s.copying.store node

def setStore (s : Filling) (node : Bytes) (store : Store) : Filling :=
  { s with copying := s.copying.setStore node store }

def setPass (s : Filling) (node : Bytes) (p : FillPass) : Filling :=
  { s with pass := Function.update s.pass node (some p) }

def update (s : Filling) (node : Bytes) (f : FillPass → FillPass) : Filling :=
  match s.pass node with
  | some p => s.setPass node (f p)
  | none => s

/-- A pass that reads nobody else's records is done with everything. -/
def begun (s : Filling) (node : Bytes) (members : List Member) : FillPass where
  course := .reconcile (readZones members node (zone node)) false
  stage := if readZones members node (zone node) = [] then .done Finset.univ else .naming
  held := ∅
  among := s.registered
  began := s.store

/-- A rebuild that has nothing to do is whole. -/
def rebuilt (s : Filling) (node : Bytes) (members : List Member) : FillPass where
  course := .rebuild (readZones members node (zone node)).tail
  stage :=
    if (s.store node).tables.names ≠ [] ∨ (readZones members node (zone node)).length < 2 then
      .done (holdingsOf node members)
    else .naming
  held := holdingsOf node members
  among := s.registered
  began := s.store

/-- The schema of a node with that of another merged into it. -/
def merged (s : Filling) (node peer : Bytes) : Store :=
  after (Store.mergeSchema J {} (s.store peer).tables (s.store node))

def declared (s : Filling) (node peer : Bytes) (p : FillPass) : Filling :=
  match p.stage, p.course with
  | .naming, .reconcile zones false =>
    if peer ∈ zones.flatten then
      (s.setStore node (s.merged J node peer)).setPass node
        { p with course := .reconcile zones true }
    else s
  | _, _ => s

def zoneAsked (s : Filling) (node : Bytes) (peer : Option Bytes) (p : FillPass) : Filling :=
  match p.stage, p.course, peer with
  | .naming, .rebuild (_ :: zones), none => s.setPass node { p with course := .rebuild zones }
  | .naming, .rebuild (nodes :: zones), some peer =>
    if peer ∈ nodes then
      (s.setStore node (s.merged J node peer)).setPass node
        { p with
          course := .rebuild zones
          stage := .fetching
            (sharesFrom (s.store peer).tables.names (holdersIn p.held nodes)) none ∅ }
    else s
  | _, _, _ => s

/-- A taker hands a file over, which is imported or throws. -/
def tookIn (s : Filling) (node : Bytes) (piece : ℕ) (throws : Bool) (p : FillPass) : Filling :=
  match p.handing piece with
  | none => s.setPass node (p.taken piece throws)
  | some (table, file) =>
    if throws then s.setPass node (p.taken piece true)
    else
      let imported := Store.importRecords {} table file (s.store node)
      (s.setStore node (after imported)).setPass node (p.taken piece (threw imported))

/-- The file that a clear down reads, and the node that it is of. -/
def cleared (s : Filling) : CopyingEvent → Option (Bytes × SentFile)
  | .clear node number members =>
    match s.copying.sent[number]? with
    | some file =>
      if Lists zone members node ∧ AsksFor zone members node file then some (node, file) else none
    | none => none
  | .write _ _ _ | .exported _ _ _ _ _ | .fetch _ _ => none

/-- Records are written, copied or given up, and a node that gives some up has less filled. -/
def copied (s : Filling) (e : CopyingEvent) : Filling :=
  match s.cleared zone e with
  | some (node, file) =>
    { s with copying := s.copying.step zone e }.update node (.clearedDown file.records)
  | none => { s with copying := s.copying.step zone e }

def step (s : Filling) : FillEvent → Filling
  | .register members => { s with registered := members }
  | .copying e => s.copied zone e
  | .create node table stamp =>
    s.setStore node (after (Store.createTable J {} table stamp (s.store node)))
  | .begin node members => s.setPass node (s.begun zone node members)
  | .declare node peer => (s.pass node).elim s (s.declared J node peer)
  | .list node members others =>
    s.update node (.listed node (zone node) (s.store node).tables.names members others)
  | .rebuild node members => s.setPass node (s.rebuilt zone node members)
  | .fromZone node peer => (s.pass node).elim s (s.zoneAsked J node peer)
  | .walk node files ways => s.update node (.walking files ways)
  | .answer node piece refusal => s.update node (.answered s.store piece refusal)
  | .take node piece throws => (s.pass node).elim s (s.tookIn node piece throws)
  | .walked node => s.update node .walked
  | .report node => s.update node .reported

end Filling

/-! ### What a pass is sure to have -/

/-- A store that nothing was written into. -/
def Store.bare : Store where
  disk := .fresh

theorem Store.not_holds_bare {table key : Bytes} {rank : ℕ} : ¬Store.bare.Holds table key rank := by
  rintro ⟨held, hheld, -⟩
  obtain ⟨family, hfamily, hvalue⟩ := Option.bind_eq_some_iff.mp hheld
  change ((∅ : Std.ExtTreeMap Bytes Family).insert defaultFamily ∅)[table]? = some family at hfamily
  rw [Std.ExtTreeMap.getElem?_insert, Std.ExtTreeMap.getElem?_empty] at hfamily
  split_ifs at hfamily
  obtain rfl := Option.some.inj hfamily
  rw [Std.ExtTreeMap.getElem?_empty] at hvalue
  cases hvalue

namespace FillPass

/-- Some node of the cluster had this of a key of the partition as the pass began. -/
def Wants (p : FillPass) (partition : Partition) (table key : Bytes) (rank : ℕ) : Prop :=
  partitionOf key = partition ∧ ∃ listed ∈ p.among, ∃ value,
    (p.began listed.node).heldAt table (Store.storeKey key) = some value ∧ storedRank value = rank

/-- What is wanted of a partition the node has, or one of those it asks for it. -/
def Finds (p : FillPass) (store : Bytes → Store) (node : Bytes) (asks : List Share)
    (partition : Partition) : Prop :=
  ∀ table key rank, p.Wants partition table key rank → (store node).Holds table key rank ∨
    ∃ share ∈ asks, share.table = table ∧ partition ∈ share.partitions ∧
      (store share.node).Holds table key rank

/-- What is wanted of a key, where its partition may come to be filled, the node has, or will have:
from a node that is still to be asked, or by the walk under way. -/
def Reaches (p : FillPass) (store : Bytes → Store) (node : Bytes) (partition : Partition)
    (table key : Bytes) (rank : ℕ) : Prop :=
  match p.stage with
  | .naming => True
  | .fetching asks walk unfilled =>
    partition ∈ p.mayFill → partition ∉ unfilled →
      ((store node).Holds table key rank ∨ ∃ share ∈ asks, share.table = table ∧
        partition ∈ share.partitions ∧ (store share.node).Holds table key rank) ∨
      ∃ w, walk = some w ∧ w.wanted.table = table ∧ partition ∈ w.wanted.partitions ∧
        w.Brings (store w.wanted.node) key rank
  | .done filled => partition ∈ filled → (store node).Holds table key rank

/-- The pass reaches everything that is wanted of a partition. -/
def Sourced (p : FillPass) (store : Bytes → Store) (node : Bytes) (partition : Partition) : Prop :=
  ∀ table key rank, p.Wants partition table key rank →
    p.Reaches store node partition table key rank

/-- What is known of a pass between two events. -/
structure Kept (p : FillPass) (store : Bytes → Store) (node : Bytes) (partition : Partition) :
    Prop where
  sound : ∀ asks w unfilled, p.stage = .fetching asks (some w) unfilled → w.Sound
  sourced : p.Sourced store node partition

variable {p : FillPass} {store : Bytes → Store} {node : Bytes} {partition : Partition}

/-- What is reached of a key is reached among stores that have as much of it. -/
theorem Reaches.mono {other : Bytes → Store} {table key : Bytes} {rank : ℕ}
    (h : p.Reaches store node partition table key rank)
    (hstores : ∀ m, (store m).Holds table key rank → (other m).Holds table key rank) :
    p.Reaches other node partition table key rank := by
  unfold Reaches at h ⊢
  cases hstage : p.stage with
  | naming => trivial
  | fetching asks walk unfilled =>
    rw [hstage] at h
    intro hmay hout
    rcases h hmay hout with
      (hholds | ⟨share, hshare, htable, hpartition, hholds⟩) | ⟨w, hw, rfl, hpartition, hbrings⟩
    · exact Or.inl (Or.inl (hstores _ hholds))
    · exact Or.inl (Or.inr ⟨share, hshare, htable, hpartition, hstores _ hholds⟩)
    · exact Or.inr ⟨w, hw, rfl, hpartition, hbrings.mono (hstores _)⟩
  | done filled =>
    rw [hstage] at h
    exact fun hin => hstores _ (h hin)

theorem Sourced.of_grows {other : Bytes → Store} (h : p.Sourced store node partition)
    (hgrows : ∀ node, (store node).Grows (other node)) : p.Sourced other node partition :=
  fun table key rank hwants =>
    (h table key rank hwants).mono fun m hholds => hholds.of_grows (hgrows m)

/-- The shares of a pass find what it wants. -/
theorem kept_fetching {asks : List Share} (hstage : p.stage = .fetching asks none ∅)
    (h : partition ∈ p.mayFill → p.Finds store node asks partition) :
    p.Kept store node partition where
  sound asks' w unfilled hw := by
    rw [hstage] at hw
    cases hw
  sourced := by
    unfold Sourced Reaches
    rw [hstage]
    exact fun table key rank hwants hmay _ => Or.inl (h hmay table key rank hwants)

theorem kept_done {filled : PartitionSet} (hstage : p.stage = .done filled)
    (h : partition ∈ filled → p.Finds store node [] partition) : p.Kept store node partition where
  sound asks w unfilled hw := by
    rw [hstage] at hw
    cases hw
  sourced := by
    unfold Sourced Reaches
    rw [hstage]
    intro table key rank hwants hin
    exact (h hin table key rank hwants).resolve_right fun ⟨_, hno, _⟩ => absurd hno List.not_mem_nil

theorem kept_naming (hstage : p.stage = .naming) : p.Kept store node partition where
  sound asks w unfilled hw := by
    rw [hstage] at hw
    cases hw
  sourced := by
    unfold Sourced Reaches
    rw [hstage]
    exact fun _ _ _ _ => trivial

/-- A walk that starts brings what its share is asked for. -/
theorem Kept.walking (h : p.Kept store node partition) (files : List StoreFile) (ways : ℕ) :
    (p.walking files ways).Kept store node partition := by
  unfold FillPass.walking
  split
  swap
  · exact h
  next wanted asks unfilled hstage =>
  have hsourced := h.sourced
  unfold Sourced Reaches at hsourced
  rw [hstage] at hsourced
  refine ⟨fun asks' w unfilled' hw => ?_, fun table key rank hwants hmay hout => ?_⟩
  · cases hw
    exact ShareWalk.sound_start wanted files ways
  · rcases hsourced table key rank hwants hmay hout with
      (hholds | ⟨share, hshare, htable, hpartition, hholds⟩) | ⟨w, hw, -⟩
    · exact Or.inl (Or.inl hholds)
    · rcases List.mem_cons.mp hshare with rfl | hlater
      · refine Or.inr ⟨_, rfl, htable, hpartition, ShareWalk.brings_start share files ways ?_⟩
        rw [htable]
        exact hholds
      · exact Or.inl (Or.inr ⟨share, hlater, htable, hpartition, hholds⟩)
    · cases hw

theorem Kept.answered (h : p.Kept store node partition) (piece : ℕ) (refusal : Option Response) :
    (p.answered store piece refusal).Kept store node partition := by
  unfold FillPass.answered
  split
  swap
  · exact h
  next asks w unfilled hstage =>
  have hsourced := h.sourced
  have hsound := h.sound asks w unfilled hstage
  unfold Sourced Reaches at hsourced
  rw [hstage] at hsourced
  refine ⟨fun asks' w' unfilled' hw => ?_, fun table key rank hwants hmay hout => ?_⟩
  · cases hw
    exact hsound.answered piece _
  · rcases hsourced table key rank hwants hmay hout with
      hholds | ⟨w', hw, htable, hpartition, hbrings⟩
    · exact Or.inl hholds
    · cases hw
      refine Or.inr ⟨_, rfl, ?_, ?_, ?_⟩
      · rw [ShareWalk.wanted_answered]
        exact htable
      · rw [ShareWalk.wanted_answered]
        exact hpartition
      · rw [ShareWalk.wanted_answered]
        refine hbrings.answered hsound (by rw [hwants.1]; exact hpartition) piece fun s hs => ?_
        cases refusal with
        | some refusal => cases hs
        | none => exact (Except.ok.inj hs).symm

/-- A file that is handed over is imported, or fails the walk. -/
theorem Kept.taken (h : p.Kept store node partition) (piece : ℕ) (throws : Bool)
    (himported : throws = false → ∀ table file, p.handing piece = some (table, file) → ∀ key rank,
      ShareWalk.Waits file key rank → (store node).Holds table key rank) :
    (p.taken piece throws).Kept store node partition := by
  unfold FillPass.taken
  split
  swap
  · exact h
  next asks w unfilled hstage =>
  have hsourced := h.sourced
  have hsound := h.sound asks w unfilled hstage
  unfold Sourced Reaches at hsourced
  rw [hstage] at hsourced
  refine ⟨fun asks' w' unfilled' hw => ?_, fun table key rank hwants hmay hout => ?_⟩
  · cases hw
    exact hsound.taken piece throws
  · rcases hsourced table key rank hwants hmay hout with
      hholds | ⟨w', hw, htable, hpartition, hbrings⟩
    · -- what the node has it keeps
      exact Or.inl hholds
    · cases hw
      rcases hbrings.taken piece throws with hstill | ⟨hgoes, file, hhanding, hwaits⟩
      · -- the walk goes on, of the same share
        refine Or.inr ⟨_, rfl, ?_, ?_, ?_⟩
        · rw [ShareWalk.wanted_taken]
          exact htable
        · rw [ShareWalk.wanted_taken]
          exact hpartition
        · rw [ShareWalk.wanted_taken]
          exact hstill
      · -- the file the walk was to bring is the one that is handed over
        have hhands : p.handing piece = some (w.wanted.table, file) := by
          rw [FillPass.handing, hstage]
          dsimp only
          rw [hhanding, Option.map_some]
        rw [← htable]
        exact Or.inl (Or.inl (himported hgoes _ file hhands key rank hwaits))

/-- A walk that ended brought what it was to bring, or its partitions are not filled. -/
theorem Kept.walked (h : p.Kept store node partition) : p.walked.Kept store node partition := by
  unfold FillPass.walked
  split
  swap
  · exact h
  next asks w unfilled hstage =>
  have hsourced := h.sourced
  unfold Sourced Reaches at hsourced
  rw [hstage] at hsourced
  split_ifs with hjoined hwhole
  · refine ⟨fun asks' w' unfilled' hw => ?_, fun table key rank hwants hmay hout => ?_⟩
    · cases hw
    rcases hsourced table key rank hwants hmay hout with hholds | ⟨w', hw, -, -, hbrings⟩
    · exact Or.inl hholds
    · cases hw
      exact absurd hbrings (ShareWalk.not_brings_of_whole hjoined hwhole)
  · split
    · refine ⟨fun asks' w' unfilled' hw => ?_, fun table key rank hwants hmay hout => ?_⟩
      · cases hw
      rw [Finset.mem_union, not_or] at hout
      rcases hsourced table key rank hwants hmay hout.1 with hholds | ⟨w', hw, -, hpartition, -⟩
      · exact Or.inl hholds
      · cases hw
        exact absurd hpartition hout.2
    · exact kept_naming rfl
  · exact h

/-- What a pass says it filled it has. -/
theorem Kept.reported (h : p.Kept store node partition) : p.reported.Kept store node partition := by
  have hsourced := h.sourced
  unfold Sourced Reaches at hsourced
  unfold FillPass.reported
  split
  · next course unfilled hstage =>
    rw [hstage] at hsourced
    refine kept_done rfl fun hin table key rank hwants => ?_
    obtain ⟨hmay, hout⟩ := Finset.mem_sdiff.mp hin
    rcases hsourced table key rank hwants hmay hout with hfinds | ⟨w, hw, -⟩
    · exact hfinds
    · cases hw
  · exact kept_done rfl fun hno => absurd hno (Finset.notMem_empty _)
  · exact h

end FillPass

/-! ### Passes in a cluster -/

namespace Filling

variable (J : JsonCodec) (zone : Bytes → Bytes) (node : Bytes) (partition : Partition)

/-- No table is dropped: a schema that is merged has no name that was dropped later than it was made
here. -/
def DropsNone (s : Filling) : FillEvent → Prop
  | .declare node peer | .fromZone node (some peer) =>
    ∀ change ∈ ((s.store node).tables.merge (s.store peer).tables).2, change.live = true
  | _ => True

/-- A clear down that reads this file gives up what a node has of a key, which is no older than
this: what the file has of the key is no older than what the node has. -/
def GivesUp (store : Store) (file : SentFile) (table key : Bytes) (rank : ℕ) : Prop :=
  file.table = table ∧ ∃ held, store.heldAt table (Store.storeKey key) = some held ∧
    rank ≤ storedRank held ∧ ∃ carried ∈ file.records, carried.1 = Store.storeKey key ∧
      storedRank held ≤ storedRank carried.2

/-- **When a pass may be sure of a partition**: as it reads whom it asks, each newest record of the
partition is with the node itself or with a node it will ask for it, in a table it then has; and
where a node gives such a record up before the pass has ended, the pass would reach it if that node
had nothing. -/
def Sure (s : Filling) : FillEvent → Prop
  | .begin other members => other = node → readZones members node (zone node) = [] →
    (s.begun zone node members).Finds s.store node [] partition
  | .list other members others =>
    other = node → ∀ p zones, s.pass node = some p → p.stage = .naming →
    p.course = .reconcile zones true → partition ∈ holdingsOf node members →
    p.Finds s.store node (sharesFrom (s.store node).tables.names
      (readHolders (holdingsOf node members) others node (zone node))) partition
  | .rebuild other members => other = node →
    (s.store node).tables.names ≠ [] ∨ (readZones members node (zone node)).length < 2 →
    partition ∈ holdingsOf node members →
    (s.rebuilt zone node members).Finds s.store node [] partition
  | .fromZone other (some peer) => other = node → ∀ p nodes zones, s.pass node = some p →
    p.stage = .naming → p.course = .rebuild (nodes :: zones) → peer ∈ nodes → partition ∈ p.held →
    p.Finds s.store node (sharesFrom (s.store peer).tables.names (holdersIn p.held nodes)) partition
  | .copying e => ∀ other file, s.cleared zone e = some (other, file) →
    ∀ p asks walk unfilled, s.pass node = some p → p.stage = .fetching asks walk unfilled →
    ∀ table key rank, p.Wants partition table key rank →
    GivesUp (s.store other) file table key rank →
    p.Reaches (Function.update s.store other .bare) node partition table key rank
  | _ => True

/-- What is known of the pass of a node, and of the partition. -/
def Kept (s : Filling) : Prop := ∀ p, s.pass node = some p → p.Kept s.store node partition

variable {J zone node partition} {s : Filling}

@[simp] theorem pass_setStore (s : Filling) (other : Bytes) (store : Store) :
    (s.setStore other store).pass = s.pass := rfl

@[simp] theorem store_setPass (s : Filling) (other : Bytes) (p : FillPass) :
    (s.setPass other p).store = s.store := rfl

theorem grows_setStore {other : Bytes} {store : Store}
    (h : (s.store other).Grows store) (m : Bytes) :
    (s.store m).Grows ((s.setStore other store).store m) := by
  by_cases hm : m = other
  · subst hm
    change (s.store m).Grows ((s.copying.setStore m store).store m)
    rw [Copying.store_setStore_self]
    exact h
  · change (s.store m).Grows ((s.copying.setStore other store).store m)
    rw [s.copying.store_setStore_of_ne hm]
    exact Store.Grows.refl _

theorem Kept.of_grows {t : Filling} (h : s.Kept node partition) (hpass : t.pass node = s.pass node)
    (hgrows : ∀ m, (s.store m).Grows (t.store m)) : t.Kept node partition := by
  intro p hp
  rw [hpass] at hp
  have hkept := h p hp
  exact ⟨hkept.sound, hkept.sourced.of_grows hgrows⟩

theorem pass_update (s : Filling) (other : Bytes) (f : FillPass → FillPass) (node : Bytes) :
    (s.update other f).pass node =
      if other = node then (s.pass node).map f else s.pass node := by
  unfold update
  split
  · next p hp =>
    change Function.update s.pass other (some (f p)) node = _
    split_ifs with hother
    · rw [← hother, Function.update_self, hp, Option.map_some]
    · rw [Function.update_of_ne (Ne.symm hother)]
  · next hnone =>
    split_ifs with hother
    · rw [← hother, hnone, Option.map_none]
    · rfl

@[simp] theorem store_update (s : Filling) (other : Bytes) (f : FillPass → FillPass) :
    (s.update other f).store = s.store := by
  unfold update
  split <;> rfl

theorem Kept.setPass {other : Bytes} {q : FillPass} (h : s.Kept node partition)
    (hq : other = node → q.Kept s.store node partition) :
    (s.setPass other q).Kept node partition := by
  intro p hp
  by_cases hother : other = node
  · subst hother
    obtain rfl : q = p := by
      change Function.update s.pass other (some q) other = some p at hp
      rwa [Function.update_self, Option.some.injEq] at hp
    exact hq rfl
  · refine h p ?_
    change Function.update s.pass other (some q) node = some p at hp
    rwa [Function.update_of_ne (Ne.symm hother)] at hp

theorem Kept.update {other : Bytes} {f : FillPass → FillPass} (h : s.Kept node partition)
    (hf : other = node → ∀ p, s.pass node = some p → p.Kept s.store node partition →
      (f p).Kept s.store node partition) : (s.update other f).Kept node partition := by
  unfold Filling.update
  split
  · next p hp =>
    refine h.setPass fun hother => ?_
    subst hother
    exact hf rfl p hp (h p hp)
  · exact h

/-- What was written is kept, whatever pass its node is in. -/
theorem Kept.setStore {other : Bytes} {store : Store} (h : s.Kept node partition)
    (hgrows : (s.store other).Grows store) : (s.setStore other store).Kept node partition :=
  h.of_grows rfl (grows_setStore hgrows)

theorem grows_merged {other peer : Bytes}
    (hlive : ∀ change ∈ ((s.store other).tables.merge (s.store peer).tables).2, change.live =
      true) :
    (s.store other).Grows (s.merged J other peer) := Store.grows_mergeSchema J hlive

/-- What is not cleared down is kept. -/
theorem grows_copied {e : CopyingEvent} (hkeeps : s.cleared zone e = none) (m : Bytes) :
    (s.copying.store m).Grows ((s.copying.step zone e).store m) := by
  cases e with
  | write other table record => exact grows_setStore (s := s) (Store.grows_writeRecord _ _ _) m
  | exported other table partitions values keys => exact Store.Grows.refl _
  | fetch other number =>
    rw [Copying.step]
    split
    · exact Store.Grows.refl _
    · split_ifs
      · exact grows_setStore (s := s) (Store.grows_importRecords _ _ _) m
      · exact Store.Grows.refl _
  | clear other number members =>
    unfold cleared at hkeeps
    rw [Copying.step]
    dsimp only at hkeeps
    cases hfile : s.copying.sent[number]? with
    | none => exact Store.Grows.refl _
    | some file =>
      rw [hfile] at hkeeps
      dsimp only at hkeeps ⊢
      split_ifs at hkeeps ⊢
      exact Store.Grows.refl _

theorem step_of_cleared {e : CopyingEvent} {other : Bytes} {file : SentFile}
    (hclears : s.cleared zone e = some (other, file)) : s.copying.step zone e =
      s.copying.setStore other
        (after (Store.clearRecords {} file.table file.records (s.store other))) := by
  cases e with
  | write other table record => cases hclears
  | exported other table partitions values keys => cases hclears
  | fetch other number => cases hclears
  | clear node number members =>
    unfold cleared at hclears
    dsimp only at hclears
    rw [Copying.step]
    cases hfile : s.copying.sent[number]? with
    | none =>
      rw [hfile] at hclears
      cases hclears
    | some read =>
      rw [hfile] at hclears
      dsimp only at hclears ⊢
      split_ifs at hclears ⊢
      obtain ⟨rfl, rfl⟩ := Prod.mk.inj (Option.some.inj hclears)
      rfl

/-- What a clear down does not give up is held as it was. -/
theorem holds_of_cleared {e : CopyingEvent} {other m table key : Bytes} {file : SentFile} {rank : ℕ}
    (hclears : s.cleared zone e = some (other, file))
    (hkeeps : m = other → ¬GivesUp (s.store other) file table key rank)
    (h : (s.store m).Holds table key rank) :
    ((s.copying.step zone e).store m).Holds table key rank := by
  rw [step_of_cleared hclears]
  by_cases hm : m = other
  · subst hm
    rw [Copying.store_setStore_self]
    obtain ⟨held, hheld, hle⟩ := h
    rcases Store.heldAt_clearRecords (s.store m) file.table file.records hheld with
      hkept | ⟨htable, carried, hcarried, hkey, hold⟩
    · exact ⟨held, hkept, hle⟩
    · exact absurd ⟨htable.symm, held, hheld, hle, carried, hcarried, hkey, hold⟩ (hkeeps rfl)
  · rw [s.copying.store_setStore_of_ne hm]
    exact h

/-- Where a clear down gives something up that the pass of a node wants, the pass reaches it
without. -/
theorem Kept.clears (h : s.Kept node partition) {e : CopyingEvent} {other : Bytes} {file : SentFile}
    (hclears : s.cleared zone e = some (other, file))
    (hsure : Sure zone node partition s (.copying e)) {p : FillPass} (hp : s.pass node = some p)
    (hstage : ∀ filled, p.stage = .done filled → other ≠ node) :
    p.Kept (s.copying.step zone e).store node partition := by
  have hkept := h p hp
  refine ⟨hkept.sound, fun table key rank hwants => ?_⟩
  have hreaches := hkept.sourced table key rank hwants
  cases hnow : p.stage with
  | naming =>
    unfold FillPass.Reaches
    rw [hnow]
    trivial
  | fetching asks walk unfilled =>
    by_cases hgives : GivesUp (s.store other) file table key rank
    · have hwithout :=
        hsure other file hclears p asks walk unfilled hp hnow table key rank hwants hgives
      refine hwithout.mono fun m hholds => ?_
      by_cases hm : m = other
      · -- the node that gives it up is not the one it is reached from
        subst hm
        rw [Function.update_self] at hholds
        exact absurd hholds Store.not_holds_bare
      · rw [Function.update_of_ne hm] at hholds
        exact holds_of_cleared hclears (fun heq => absurd heq hm) hholds
    · exact hreaches.mono fun m hholds => holds_of_cleared hclears (fun _ => hgives) hholds
  | done filled =>
    unfold FillPass.Reaches at hreaches ⊢
    rw [hnow] at hreaches ⊢
    exact fun hin => holds_of_cleared hclears (fun heq => absurd heq.symm (hstage filled hnow))
      (hreaches hin)

/-- A node that clears records down of a partition has it filled no longer, and keeps what it has of
the others. -/
theorem kept_clearedDown {p : FillPass} (h : p.Kept s.store node partition) {e : CopyingEvent}
    {file : SentFile} (hclears : s.cleared zone e = some (node, file)) {filled : PartitionSet}
    (hstage : p.stage = .done filled) :
    (p.clearedDown file.records).Kept (s.copying.step zone e).store node partition := by
  have hcleared : p.clearedDown file.records =
      { p with stage := .done (filled.filter fun partition =>
        ∀ carried ∈ file.records, Store.partitionHeld carried.1 ≠ partition) } := by
    rw [FillPass.clearedDown, hstage]
  rw [hcleared]
  refine FillPass.kept_done rfl fun hin table key rank hwants => Or.inl ?_
  obtain ⟨hfilled, hnone⟩ := Finset.mem_filter.mp hin
  have hreaches := h.sourced table key rank hwants
  unfold FillPass.Reaches at hreaches
  rw [hstage] at hreaches
  refine holds_of_cleared hclears (fun _ hgives => ?_) (hreaches hfilled)
  -- the key is in the partition, and no record of the file is
  obtain ⟨-, held, -, -, carried, hcarried, hkey, -⟩ := hgives
  refine hnone carried hcarried ?_
  rw [hkey, Store.partitionHeld_storeKey, hwants.1]

/-- Records that are written and copied are kept, and a pass does without those that are given
up. -/
theorem Kept.copied (h : s.Kept node partition) (e : CopyingEvent)
    (hsure : Sure zone node partition s (.copying e)) : (s.copied zone e).Kept node partition := by
  unfold Filling.copied
  split
  swap
  · next hkeeps => exact h.of_grows rfl (grows_copied hkeeps)
  next other file hclears =>
  intro p hp
  rw [pass_update] at hp
  rw [store_update]
  split_ifs at hp with hother
  · subst hother
    obtain ⟨before, hbefore, rfl⟩ := Option.map_eq_some_iff.mp hp
    by_cases hdone : ∃ filled, before.stage = .done filled
    · obtain ⟨filled, hstage⟩ := hdone
      exact kept_clearedDown (h before hbefore) hclears hstage
    · have hsame : before.clearedDown file.records = before := by
        unfold FillPass.clearedDown
        split
        · next filled hstage => exact absurd ⟨filled, hstage⟩ hdone
        · rfl
      rw [hsame]
      exact h.clears hclears hsure hbefore fun filled hstage => absurd ⟨filled, hstage⟩ hdone
  · exact h.clears hclears hsure hp fun _ _ => hother

/-- A pass merges the tables of a peer and names no shares yet. -/
theorem Kept.declare (h : s.Kept node partition) {other peer : Bytes}
    (hdrops : s.DropsNone (.declare other peer)) :
    (s.step J zone (.declare other peer)).Kept node partition := by
  change Kept node partition ((s.pass other).elim s (s.declared J other peer))
  cases hp : s.pass other with
  | none => exact h
  | some p =>
    change Kept node partition (s.declared J other peer p)
    unfold declared
    split
    · next zones hstage hcourse =>
      split_ifs
      · exact (h.setStore (grows_merged hdrops)).setPass fun _ => FillPass.kept_naming hstage
      · exact h
    · exact h

/-- A pass that names the shares it will ask for is sure of a partition it may fill. -/
theorem Kept.list (h : s.Kept node partition) {other : Bytes} {members others : List Member}
    (hsure : Sure zone node partition s (.list other members others)) :
    (s.step J zone (.list other members others)).Kept node partition := by
  refine h.update fun hother p hp hkept => ?_
  subst hother
  unfold FillPass.listed
  split
  · next zones declared hstage hcourse =>
    refine FillPass.kept_fetching rfl fun hmay => ?_
    cases declared with
    | false =>
      -- it may fill nothing where not every node declared its tables
      rw [FillPass.mayFill] at hmay
      dsimp only at hmay
      rw [hcourse] at hmay
      exact absurd hmay (Finset.notMem_empty _)
    | true =>
      rw [FillPass.mayFill] at hmay
      dsimp only at hmay
      rw [hcourse] at hmay
      exact hsure rfl p zones hp hstage hcourse hmay
  · exact hkept

/-- A rebuild takes the tables of a node of the next zone, and names what it will ask the zone
for. -/
theorem Kept.fromZone (h : s.Kept node partition) {other : Bytes} {peer : Option Bytes}
    (hdrops : s.DropsNone (.fromZone other peer))
    (hsure : Sure zone node partition s (.fromZone other peer)) :
    (s.step J zone (.fromZone other peer)).Kept node partition := by
  change Kept node partition ((s.pass other).elim s (s.zoneAsked J other peer))
  cases hp : s.pass other with
  | none => exact h
  | some p =>
    change Kept node partition (s.zoneAsked J other peer p)
    unfold zoneAsked
    split
    · next _ nodes zones hstage hcourse => exact h.setPass fun _ => FillPass.kept_naming hstage
    · next _ nodes zones peer hstage hcourse =>
      split_ifs with hpeer
      · refine (h.setStore (grows_merged hdrops)).setPass fun hother => ?_
        subst hother
        refine FillPass.kept_fetching rfl fun hmay table key rank hwants => ?_
        have hgrows := grows_setStore (grows_merged (J := J) hdrops)
        rcases hsure rfl p nodes zones hp hstage hcourse hpeer hmay table key rank hwants with
          hholds | ⟨share, hshare, htable, hpartition, hholds⟩
        · exact Or.inl (hholds.of_grows (hgrows _))
        · exact Or.inr ⟨share, hshare, htable, hpartition, hholds.of_grows (hgrows _)⟩
      · exact h
    · exact h

/-- A pass takes in what was handed to it: a file is imported, or the walk fails. -/
theorem Kept.take (h : s.Kept node partition) (other : Bytes) (piece : ℕ) (throws : Bool) :
    (s.step J zone (.take other piece throws)).Kept node partition := by
  change Kept node partition ((s.pass other).elim s (s.tookIn other piece throws))
  cases hp : s.pass other with
  | none => exact h
  | some p =>
    change Kept node partition (s.tookIn other piece throws p)
    unfold tookIn
    split
    · next hhanding =>
      -- nothing is handed over
      refine h.setPass fun hother => ?_
      subst hother
      refine (h p hp).taken piece throws fun _ table file hno => ?_
      rw [hhanding] at hno
      cases hno
    · next table file hhanding =>
      split_ifs with hthrows
      · refine h.setPass fun hother => ?_
        subst hother
        exact (h p hp).taken piece true fun hno => absurd hno (by decide)
      · have hgrows := Store.grows_importRecords (s.store other) table file
        refine (h.setStore hgrows).setPass fun hother => ?_
        subst hother
        refine (h.setStore hgrows p hp).taken piece _
          fun hok table' file' hhands key rank hwaits => ?_
        rw [hhanding, Option.some.injEq, Prod.mk.injEq] at hhands
        obtain ⟨rfl, rfl⟩ := hhands
        change ((s.copying.setStore other _).store other).Holds table key rank
        rw [Copying.store_setStore_self]
        cases hrun : Store.importRecords {} table file (s.store other) with
        | ok count t => exact Store.holds_importRecords hrun hwaits.1 hwaits.2
        | error e t =>
          rw [hrun] at hok
          cases hok

/-- **A step of a cluster takes nothing from a pass that it is sure to have.** -/
theorem Kept.step (h : s.Kept node partition) (e : FillEvent) (hdrops : s.DropsNone e)
    (hsure : Sure zone node partition s e) : (s.step J zone e).Kept node partition := by
  cases e with
  | register members => exact h
  | copying e => exact h.copied e hsure
  | create other table stamp => exact h.setStore (Store.grows_createTable J table stamp _)
  | begin other members =>
    refine h.setPass fun hother => ?_
    subst hother
    by_cases hnone : readZones members other (zone other) = []
    · exact FillPass.kept_done (if_pos hnone) fun _ => hsure rfl hnone
    · exact FillPass.kept_naming (if_neg hnone)
  | declare other peer => exact h.declare hdrops
  | list other members others => exact h.list hsure
  | rebuild other members =>
    refine h.setPass fun hother => ?_
    subst hother
    by_cases hdone : (s.store other).tables.names ≠ [] ∨
      (readZones members other (zone other)).length < 2
    · exact FillPass.kept_done (if_pos hdone) fun hin => hsure rfl hdone hin
    · exact FillPass.kept_naming (if_neg hdone)
  | fromZone other peer => exact h.fromZone hdrops hsure
  | walk other files ways => exact h.update fun _ p _ hp => hp.walking files ways
  | answer other piece refusal => exact h.update fun _ p _ hp => hp.answered piece refusal
  | take other piece throws => exact h.take other piece throws
  | walked other => exact h.update fun _ p _ hp => hp.walked
  | report other => exact h.update fun _ p _ hp => hp.reported

variable (node partition)

/-- **What it is for a partition to be filled**: a pass that said so left its node with something at
least as new as what any node of the cluster had as it began, and a read of it there finds it. -/
def Whole (s : Filling) : Prop :=
  ∀ p filled, s.pass node = some p → p.stage = .done filled → partition ∈ filled →
    ∀ listed ∈ p.among, ∀ table key value, partitionOf key = partition →
      (p.began listed.node).heldAt table (Store.storeKey key) = some value →
      (∃ held, (s.store node).heldAt table (Store.storeKey key) = some held ∧
        Record.isNewer value held = false) ∧
      ∀ (w : Seams) (n : Node), w.db = {} → n.store = s.store node →
        (Node.respond (Node.readHere w table key) n).status = 200

variable {node partition}

theorem Kept.whole (h : s.Kept node partition) : s.Whole node partition := by
  intro p filled hp hstage hin listed hlisted table key value hkey hvalue
  have hsourced := (h p hp).sourced
  have hreaches := hsourced table key _ ⟨hkey, listed, hlisted, value, hvalue, rfl⟩
  unfold FillPass.Reaches at hreaches
  rw [hstage] at hreaches
  obtain ⟨held, hheld, hle⟩ := hreaches hin
  refine ⟨⟨held, hheld, ?_⟩, fun w n hdb hn => ?_⟩
  · rw [← Bool.not_eq_true, isNewer_iff_storedRank]
    exact not_lt.mpr hle
  · obtain ⟨family, hfamily, hin⟩ := Option.bind_eq_some_iff.mp hheld
    rw [Node.respond_readHere hdb, hn, hfamily]
    dsimp only
    rw [hin]
    rfl

/-- A store with a table and nothing in it. -/
def storeOfTable : Store :=
  after (Store.createTable JsonText.codec {} ⟨ascii "t", []⟩ ⟨1, 1⟩
    (Node.fresh JsonText.codec).store)

/-- A cluster of which these nodes have the record. -/
def stores (holders : List Bytes) (node : Bytes) : Store :=
  if node ∈ holders then storeOfRecord else storeOfTable

/-- One zone, which two nodes have joined. -/
def joined : List Member :=
  [⟨ascii "a", ascii "z"⟩, ⟨ascii "b", ascii "z"⟩, ⟨ascii "c", ascii "z"⟩]

def oneZone (_ : Bytes) : Bytes := ascii "z"

/-- What one of those that joined asks for, and of whom. -/
def asksOfJoined (held : PartitionSet) : List Share :=
  sharesFrom [ascii "t"] (readHolders held joined (ascii "c") (ascii "z"))

/-- Its pass, until it reads whom to ask. -/
def toList : List FillEvent :=
  [.register [⟨ascii "a", ascii "z"⟩], .register joined, .begin (ascii "c") joined,
    .declare (ascii "c") (ascii "a")]

/-- A walk of one piece and one file. -/
def oneFile (node : Bytes) : List FillEvent :=
  [.walk node [] 0, .answer node 0 none, .take node 0 false, .walked node]

/-- The whole pass, in which every node answers, with what comes before its walks. -/
def passOver (meanwhile : List FillEvent) (asks : List Share) : List FillEvent :=
  toList ++ [.list (ascii "c") joined joined] ++ meanwhile ++
    asks.flatMap (fun _ => oneFile (ascii "c")) ++ [.report (ascii "c")]

def joinedTogether (meanwhile : List FillEvent) : List FillEvent :=
  passOver meanwhile (asksOfJoined (holdingsOf (ascii "c") joined))

/-- A file that the owner of the record's partition sends, of the keys that it has of it. -/
def sentFor : SentFile where
  node := ascii "b"
  table := ascii "t"
  partitions := {partitionOf (ascii "k")}
  values := false
  records := storeOfRecord.exportFile (ascii "t") {partitionOf (ascii "k")} false
    [Store.storeKey (ascii "k")]

/-- A node of the zone gives the record up, under the membership before. -/
def givenUp : List FillEvent :=
  [.copying (.exported (ascii "b") (ascii "t") {partitionOf (ascii "k")} false
      [Store.storeKey (ascii "k")]),
    .copying (.clear (ascii "a") 0 [⟨ascii "a", ascii "z"⟩, ⟨ascii "b", ascii "z"⟩])]

section Steps

variable {J : JsonCodec} {zone : Bytes → Bytes} {s : Filling} {node : Bytes} {p : FillPass}

@[simp] theorem pass_setPass_self (s : Filling) (node : Bytes) (p : FillPass) :
    (s.setPass node p).pass node = some p := Function.update_self _ _ _

@[simp] theorem setPass_setPass (s : Filling) (node : Bytes) (p q : FillPass) :
    (s.setPass node p).setPass node q = s.setPass node q := by
  unfold setPass
  rw [Function.update_idem]

theorem setStore_self (s : Filling) (node : Bytes) : s.setStore node (s.store node) = s := by
  obtain ⟨⟨store, sent⟩, registered, pass⟩ := s
  change Filling.mk ⟨Function.update store node (store node), sent⟩ registered pass = _
  rw [Function.update_eq_self]

theorem update_eq (hp : s.pass node = some p) (f : FillPass → FillPass) :
    s.update node f = s.setPass node (f p) := by
  unfold update
  rw [hp]

theorem step_declare {zones : List (List Bytes)} {peer : Bytes} (hp : s.pass node = some p)
    (hstage : p.stage = .naming) (hcourse : p.course = .reconcile zones false)
    (hpeer : peer ∈ zones.flatten) : s.step J zone (.declare node peer) =
      (s.setStore node (s.merged J node peer)).setPass node
      { p with course := .reconcile zones true } := by
  rw [step, hp, Option.elim_some, declared, hstage, hcourse]
  exact if_pos hpeer

theorem step_list {zones : List (List Bytes)} {members others : List Member}
    (hp : s.pass node = some p)
    (hstage : p.stage = .naming) (hcourse : p.course = .reconcile zones true) :
    s.step J zone (.list node members others) = s.setPass node
      { p with
        held := holdingsOf node members
        stage := .fetching (sharesFrom (s.store node).tables.names
          (readHolders (holdingsOf node members) others node (zone node))) none ∅ } := by
  rw [step, update_eq hp, FillPass.listed, hstage, hcourse]

theorem node_of_cleared {number : ℕ} {members : List Member} {other : Bytes} {file : SentFile}
    (hclears : s.cleared zone (.clear node number members) = some (other, file)) :
    other = node := by
  unfold cleared at hclears
  dsimp only at hclears
  split at hclears
  · split_ifs at hclears
    exact (Prod.mk.inj (Option.some.inj hclears)).1.symm
  · cases hclears

/-- The nodes of a cluster hold nothing of a share. -/
def NoneOf (s : Store) (wanted : Share) : Prop :=
  s.tables.has wanted.table = true ∧ ∃ family, s.disk.families[wanted.table]? = some family ∧
    ∀ key ∈ family, ¬Store.InShare wanted.partitions key

/-- A source that has nothing of a share answers with one file that has nothing in it. -/
theorem carry_noneOf {source : Store} {wanted : Share} (hnone : NoneOf source wanted) :
    let reading := carry { toPiece := {} } (Transfer.answerOf wanted (n := 1) {} (.ok source))
    reading.relay = [[]] ∧ reading.whole = true := by
  intro reading
  obtain ⟨hhas, family, hfamily, hout⟩ := hnone
  have hin : wanted.table ∈ source.disk.families := by
    rw [← Std.ExtTreeMap.isSome_getElem?_iff_mem, hfamily]
    rfl
  rcases @carry_cases wanted 1 { toPiece := {} } (by simp) (by simp) (.ok source) with
    ⟨-, hno⟩ | ⟨s, family', hs, hfamily', ha⟩
  · exact absurd ⟨hhas, hin⟩ (hno source rfl)
  obtain rfl := Except.ok.inj hs
  obtain rfl := Option.some.inj (hfamily.symm.trans hfamily')
  have hmore : (fileOf wanted 1 {} family).hasMore = false := by
    by_contra hyes
    obtain ⟨hmem, hshare, -⟩ := last_fileOf (Bool.eq_true_of_not_eq_false hyes)
    exact hout _ hmem hshare
  have hfile : (fileOf wanted 1 {} family).file = [] := by
    refine List.eq_nil_iff_forall_not_mem.mpr fun carried hcarried => ?_
    obtain ⟨value, hvalue, -, hshare, -⟩ :=
      mem_fileOf_iff.mp (show (carried.1, carried.2) ∈ _ from hcarried)
    refine hout _ ?_ hshare
    rw [← Std.ExtTreeMap.isSome_getElem?_iff_mem, hvalue]
    rfl
  refine ⟨?_, (ha.ended hmore).2.2⟩
  rw [← hfile]
  exact ha.relay

/-- A walk of a share that its source has nothing of hands nothing over, and is whole. -/
theorem run_oneFile {wanted : Share} {asks : List Share} {unfilled : PartitionSet}
    (hp : s.pass node = some p) (hstage : p.stage = .fetching (wanted :: asks) none unfilled)
    (hnone : NoneOf (s.store wanted.node) wanted) :
    run (step J zone) s (oneFile node) =
      s.setPass node { p with stage := .fetching asks none unfilled } := by
  obtain ⟨hrelay, hwhole⟩ := carry_noneOf hnone
  set reading :=
    carry { toPiece := {} } (Transfer.answerOf wanted (n := 1) {} (.ok (s.store wanted.node)))
    with hreading
  -- the walk once it was answered, and once its file was taken in
  let asked : ShareWalk := { wanted, points := [], transfer := { pieces := fun _ => reading } }
  let through : ShareWalk :=
    { wanted, points := [], transfer :=
      { pieces := fun _ => { reading with relay := [] }, handed := [[]] } }
  have hone : ∀ (pieces : Fin (piecesOf []).length → Reading) (r : Reading),
      Function.update pieces ⟨0, by decide⟩ r = fun _ => r := by
    intro pieces r
    funext i
    obtain rfl : i = ⟨0, by decide⟩ := Fin.ext (Nat.lt_one_iff.mp i.isLt)
    exact Function.update_self _ _ _
  have hanswered :
      (ShareWalk.start wanted [] 0).answered 0 (.ok (s.store wanted.node)) = asked := by
    change ShareWalk.answered { wanted, points := [], transfer := Transfer.start [] } 0 _ = asked
    unfold ShareWalk.answered
    rw [dif_pos (show 0 < (piecesOf []).length by decide)]
    dsimp only
    rw [hone]
    rfl
  have htaken : asked.taken 0 false = through := by
    unfold ShareWalk.taken
    rw [dif_pos (show 0 < (piecesOf []).length by decide)]
    unfold Transfer.step
    dsimp only [asked]
    rw [hrelay]
    dsimp only
    rw [hone]
    rfl
  have hhanding : asked.handing 0 = some [] := by
    unfold ShareWalk.handing
    rw [dif_pos (show 0 < (piecesOf []).length by decide)]
    dsimp only [asked]
    rw [hrelay]
    rfl
  let now (walk : Option ShareWalk) (left : List Share) : FillPass :=
    { p with stage := .fetching left walk unfilled }
  have hwalk : s.step J zone (.walk node [] 0) =
      s.setPass node (now (some (.start wanted [] 0)) asks) := by
    rw [step, update_eq hp, FillPass.walking, hstage]
  have hanswer : (s.setPass node (now (some (.start wanted [] 0)) asks)).step J zone
    (.answer node 0 none) =
      s.setPass node (now (some asked) asks) := by
    rw [step, update_eq (pass_setPass_self _ _ _), setPass_setPass, ← hanswered]
    rfl
  have htake : (s.setPass node (now (some asked) asks)).step J zone (.take node 0 false) =
      s.setPass node (now (some through) asks) := by
    have hhands : (now (some asked) asks).handing 0 = some (wanted.table, []) := by
      rw [FillPass.handing]
      dsimp only [now]
      rw [hhanding]
      rfl
    have htook : (now (some asked) asks).taken 0 false = now (some through) asks := by
      rw [FillPass.taken]
      dsimp only [now]
      rw [htaken]
    rw [step, pass_setPass_self, Option.elim_some, tookIn, hhands]
    change ((s.setPass node (now (some asked) asks)).setStore node (s.store node)).setPass node
      ((now (some asked) asks).taken 0 false) = _
    rw [← store_setPass s node (now (some asked) asks), setStore_self, htook, setPass_setPass]
  have hwalked : (s.setPass node (now (some through) asks)).step J zone (.walked node) =
      s.setPass node (now none asks) := by
    rw [step, update_eq (pass_setPass_self _ _ _), setPass_setPass]
    have hdone : (now (some through) asks).walked = now none asks := by
      rw [FillPass.walked]
      dsimp only [now]
      have hjoined : through.transfer.Joined := fun _ => rfl
      have hall : through.transfer.whole = true := decide_eq_true ⟨rfl, fun _ => hwhole⟩
      rw [if_pos hjoined, if_pos hall]
    rw [hdone]
  rw [oneFile, run_cons, hwalk, run_cons, hanswer, run_cons, htake, run_cons, hwalked, run_nil]

/-- A pass whose sources have nothing of what it asks for leaves everything as it was. -/
theorem run_walks {asks : List Share} {unfilled : PartitionSet} (hp : s.pass node = some p)
    (hstage : p.stage = .fetching asks none unfilled)
    (hnone : ∀ wanted ∈ asks, NoneOf (s.store wanted.node) wanted) :
    run (step J zone) s (asks.flatMap fun _ => oneFile node) =
      s.setPass node { p with stage := .fetching [] none unfilled } := by
  induction asks generalizing s p with
  | nil =>
    have hsame : { p with stage := .fetching [] none unfilled } = p := by rw [← hstage]
    rw [hsame, List.flatMap_nil, run_nil, setPass, ← hp, Function.update_eq_self]
  | cons wanted asks ih =>
    rw [List.flatMap_cons, run_append, run_oneFile hp hstage (hnone wanted List.mem_cons_self),
      ih (pass_setPass_self _ _ _) rfl fun other hother =>
        hnone other (List.mem_cons_of_mem _ hother),
      setPass_setPass]

end Steps

/-- The store of the node that joined, with the schema of the old one merged into it. -/
def mergedStore (holders : List Bytes) : Store :=
  after (Store.mergeSchema JsonText.codec {} (stores holders (ascii "a")).tables
    (stores holders (ascii "c")))

/-- The pass of the node that joined, as it reads whom to ask. -/
def passOfJoined (holders : List Bytes) : FillPass where
  course := .reconcile (readZones joined (ascii "c") (ascii "z")) true
  stage := .naming
  held := ∅
  among := joined
  began := stores holders

theorem pass_toList (holders : List Bytes) :
    let s := run (step JsonText.codec oneZone) { copying := { store := stores holders } } toList
    s.pass (ascii "c") = some (passOfJoined holders) ∧
      s.store = Function.update (stores holders) (ascii "c") (mergedStore holders) := by
  have hzones : readZones joined (ascii "c") (ascii "z") ≠ [] := by
    rw [readZones, if_neg (by decide)]
    exact List.cons_ne_nil _ _
  have hpeer : ascii "a" ∈ (readZones joined (ascii "c") (ascii "z")).flatten := by decide +kernel
  let registered : Filling := { copying := { store := stores holders }, registered := joined }
  have hbegun : registered.begun oneZone (ascii "c") joined =
      { passOfJoined holders with
        course := .reconcile (readZones joined (ascii "c") (ascii "z")) false } := by
    change FillPass.mk _ (if readZones joined (ascii "c") (ascii "z") = [] then _ else _) _ _ _ = _
    rw [if_neg hzones]
    rfl
  have hrun : run (step JsonText.codec oneZone) { copying := { store := stores holders } } toList =
      (registered.setPass (ascii "c") (registered.begun oneZone (ascii "c") joined)).step
        JsonText.codec oneZone (.declare (ascii "c") (ascii "a")) := rfl
  rw [hrun, hbegun, step_declare (pass_setPass_self _ _ _) rfl rfl hpeer]
  exact ⟨pass_setPass_self _ _ _, rfl⟩

theorem names_joined : ∀ listed ∈ joined, listed.node ≠ [] := by decide

/-- The partition of the record, which the node that has it owns in neither membership. -/
theorem owner_of_record : ownersOf (partitionName ⟨101, by decide⟩) (othersOf joined (ascii "c")) =
    [⟨ascii "b", ascii "z"⟩] ∧ (⟨101, by decide⟩ : Partition) ∈ holdingsOf (ascii "c") joined := by
  refine ⟨by decide +kernel, ?_⟩
  rw [holdingsOf, if_neg (by decide), Finset.mem_filter]
  exact ⟨Finset.mem_univ _, by decide +kernel⟩

variable {held : PartitionSet}

theorem mem_asksOfJoined {wanted : Share} : wanted ∈ asksOfJoined held ↔
    ∃ partitions, (holdersOf held joined (ascii "c") (ascii "z"))[wanted.node]? =
      some partitions ∧ wanted = { node := wanted.node, table := ascii "t", partitions } := by
  rw [asksOfJoined, sharesFrom, List.flatMap_singleton, List.mem_map,
    readHolders, if_neg (by decide)]
  constructor
  · rintro ⟨held, hheld, rfl⟩
    exact ⟨held.2, Std.ExtTreeMap.mem_toList_iff_getElem?_eq_some.mp hheld, rfl⟩
  · rintro ⟨partitions, hheld, hwanted⟩
    exact ⟨(wanted.node, partitions),
      Std.ExtTreeMap.mem_toList_iff_getElem?_eq_some.mpr hheld, hwanted.symm⟩

/-- Whom a node that joined asks, and for what not: the record's partition is not asked of the node
that has it. -/
theorem node_of_mem_asksOfJoined {wanted : Share} (h : wanted ∈ asksOfJoined held) :
    wanted.table = ascii "t" ∧
    (wanted.node = ascii "a" ∧ (⟨101, by decide⟩ : Partition) ∉ wanted.partitions ∨
      wanted.node = ascii "b") := by
  obtain ⟨partitions, hheld, hwanted⟩ := mem_asksOfJoined.mp h
  have hasked := names_holdersOf names_joined held (ascii "c") (ascii "z")
  refine ⟨by rw [hwanted], ?_⟩
  obtain ⟨partition, -, owner, howner, hnode⟩ := hasked.nonempty wanted.node (by
    rw [← Std.ExtTreeMap.isSome_getElem?_iff_mem, hheld]
    rfl)
  have hothers : owner ∈ othersOf joined (ascii "c") :=
    mem_of_mem_ownersOf (fun listed hlisted =>
      names_joined listed (List.mem_of_mem_filter hlisted)) howner
  have hlisted : othersOf joined (ascii "c") =
    [⟨ascii "a", ascii "z"⟩, ⟨ascii "b", ascii "z"⟩] := by decide
  rw [hlisted, List.mem_pair] at hothers
  rcases hothers with rfl | rfl
  · refine Or.inl ⟨hnode.symm, fun hin => ?_⟩
    rw [hwanted] at hin
    have hgetD : (⟨101, by decide⟩ : Partition) ∈
        (holdersOf held joined (ascii "c") (ascii "z")).getD wanted.node ∅ := by
      rw [Std.ExtTreeMap.getD_eq_getD_getElem?, hheld]
      exact hin
    obtain ⟨-, other, hother, hsame⟩ := (hasked.iff _ _).mp hgetD
    rw [owner_of_record.1, List.mem_singleton] at hother
    rw [hother, ← hnode] at hsame
    exact absurd hsame (by decide)
  · exact Or.inr hnode.symm

/-- The partition of the record is asked of the other node that joined. -/
theorem asks_record (hheld : (⟨101, by decide⟩ : Partition) ∈ held) :
    ∃ wanted ∈ asksOfJoined held, wanted.table = ascii "t" ∧ wanted.node = ascii "b" ∧
    (⟨101, by decide⟩ : Partition) ∈ wanted.partitions := by
  have hasked := names_holdersOf names_joined held (ascii "c") (ascii "z")
  have hin := (hasked.iff (ascii "b") ⟨101, by decide⟩).mpr ⟨hheld, ⟨ascii "b", ascii "z"⟩, by
    rw [owner_of_record.1]
    exact List.mem_singleton_self _, rfl⟩
  rw [Std.ExtTreeMap.getD_eq_getD_getElem?] at hin
  cases hasks : (holdersOf held joined (ascii "c") (ascii "z"))[ascii "b"]? with
  | none =>
    rw [hasks] at hin
    exact absurd hin (Finset.notMem_empty _)
  | some partitions =>
    rw [hasks] at hin
    exact ⟨{ node := ascii "b", table := ascii "t", partitions },
      mem_asksOfJoined.mpr ⟨partitions, hasks, rfl⟩, rfl, rfl, hin⟩

/-- The keys of the one table of a store. -/
def keysOfTable (s : Store) : Option (List Bytes) :=
  s.disk.families[ascii "t"]?.map fun family => family.toList.map Prod.fst

theorem noneOf_of_keys {s : Store} {wanted : Share} (keys : List Bytes)
    (htable : wanted.table = ascii "t")
    (hhas : s.tables.has (ascii "t") = true) (hkeys : keysOfTable s = some keys)
    (hout : ∀ key ∈ keys, ¬Store.InShare wanted.partitions key) : NoneOf s wanted := by
  obtain ⟨family, hfamily, rfl⟩ := Option.map_eq_some_iff.mp hkeys
  refine ⟨htable ▸ hhas, family, htable ▸ hfamily, fun key hkey => hout key ?_⟩
  obtain ⟨value, hvalue⟩ :=
    Option.isSome_iff_exists.mp (Std.ExtTreeMap.isSome_getElem?_iff_mem.mpr hkey)
  exact List.mem_map_of_mem (f := Prod.fst)
    (Std.ExtTreeMap.mem_toList_iff_getElem?_eq_some.mpr hvalue)

/-- What is true of every event in every state holds throughout a run. -/
theorem throughout_of_all {C : Filling → FillEvent → Prop} {es : List FillEvent}
    (h : ∀ s, ∀ e ∈ es, C s e) (s : Filling) :
    Throughout (step JsonText.codec oneZone) C s es :=
  Throughout.imp (C := fun _ e => ∀ s, C s e) (I := fun _ => True) (fun _ _ _ _ => trivial)
    (fun s _ _ hall => hall s) trivial
    (throughout_of_forall (P := fun e => ∀ s, C s e) (fun e he s => h s e he) s)

/-- The pass drops no table, whatever it walks and whatever records are given up. -/
theorem throughout_drops (meanwhile : List FillEvent)
    (hmeanwhile : ∀ s, ∀ e ∈ meanwhile, DropsNone s e) (asks : List Share) {holders : List Bytes}
    (hsame :
      ((stores holders (ascii "c")).tables.merge (stores holders (ascii "a")).tables).2 = []) :
    Throughout (step JsonText.codec oneZone) DropsNone { copying := { store := stores holders } }
      (passOver meanwhile asks) := by
  have hwalk : ∀ s, ∀ e ∈ oneFile (ascii "c"), DropsNone s e := by
    intro s e he
    simp only [oneFile, List.mem_cons, List.not_mem_nil, or_false] at he
    rcases he with rfl | rfl | rfl | rfl <;> trivial
  rw [passOver, throughout_append, throughout_append, throughout_append, throughout_append]
  refine ⟨⟨⟨⟨?_, trivial, throughout_nil _ _⟩, throughout_of_all hmeanwhile _⟩,
    throughout_of_all (fun s e he => ?_) _⟩, trivial, throughout_nil _ _⟩
  · rw [toList, throughout_cons, throughout_cons, throughout_cons, throughout_cons]
    refine ⟨trivial, trivial, trivial, ?_, throughout_nil _ _⟩
    intro change hchange
    exact absurd (hsame ▸ hchange) List.not_mem_nil
  · obtain ⟨_, -, hin⟩ := List.mem_flatMap.mp he
    exact hwalk s e hin

theorem table_of_heldAt {s : Store} {table key value : Bytes}
    (h : s.heldAt table key = some value) :
    ∃ held ∈ s.disk.families.toList, held.1 = table ∧ held.2.toList ≠ [] := by
  obtain ⟨family, hfamily, hvalue⟩ := Option.bind_eq_some_iff.mp h
  refine ⟨(table, family), Std.ExtTreeMap.mem_toList_iff_getElem?_eq_some.mpr hfamily, rfl, ?_⟩
  exact List.ne_nil_of_mem (Std.ExtTreeMap.mem_toList_iff_getElem?_eq_some.mpr hvalue)

theorem heldAt_stores {holders : List Bytes} {other table key value : Bytes}
    (h : (stores holders other).heldAt table key = some value) :
    other ∈ holders ∧ table = ascii "t" := by
  obtain ⟨held, hmem, rfl, hsome⟩ := table_of_heldAt h
  unfold stores at hmem
  split_ifs at hmem with hholder
  · have honly : ∀ held ∈ storeOfRecord.disk.families.toList, held.2.toList ≠ [] →
      held.1 = ascii "t" := by
      decide +kernel
    exact ⟨hholder, honly held hmem hsome⟩
  · have hnone : ∀ held ∈ storeOfTable.disk.families.toList, held.2.toList = [] := by
      decide +kernel
    exact absurd (hnone held hmem) hsome

/-- The node that gives the record up asks the owner of its partition for it. -/
theorem asksFor_sentFor :
    AsksFor oneZone [⟨ascii "a", ascii "z"⟩, ⟨ascii "b", ascii "z"⟩] (ascii "a") sentFor := by
  refine ⟨rfl, fun partition hpartition => ?_⟩
  obtain rfl := Finset.mem_singleton.mp hpartition
  refine ⟨?_, by decide +kernel⟩
  rw [holdingsOf, if_neg (by decide), Finset.mem_filter]
  rintro ⟨-, howned⟩
  exact absurd howned (by decide +kernel)

/-- What a node that joined asks for, it asks of the node that has it, though another node may have
it too. -/
theorem finds_record {holders : List Bytes} {store : Bytes → Store} {table key : Bytes} {rank : ℕ}
    (hheld : (⟨101, by decide⟩ : Partition) ∈ held)
    (hholds : (stores holders (ascii "b")).Holds table key rank)
    (hstore : store (ascii "b") = stores holders (ascii "b")) :
    ∃ share ∈ asksOfJoined held, share.table = table ∧
      (⟨101, by decide⟩ : Partition) ∈ share.partitions ∧
      (store share.node).Holds table key rank := by
  obtain ⟨value, hvalue, hle⟩ := hholds
  obtain ⟨-, rfl⟩ := heldAt_stores hvalue
  obtain ⟨wanted, hwanted, htable, hnode, hpartition⟩ := asks_record hheld
  refine ⟨wanted, hwanted, htable, hpartition, value, ?_, hle⟩
  rw [hnode, hstore]
  exact hvalue

/-- Where both nodes have the record as the pass begins, the other has whatever one of them has. -/
theorem holds_other {other table key : Bytes} {rank : ℕ}
    (h : (stores [ascii "a", ascii "b"] other).Holds table key rank) :
    (stores [ascii "a", ascii "b"] (ascii "b")).Holds table key rank := by
  obtain ⟨value, hvalue, hle⟩ := h
  obtain ⟨hholder, -⟩ := heldAt_stores hvalue
  rw [stores, if_pos hholder] at hvalue
  exact ⟨value, hvalue, hle⟩

/-- Whatever the old node gives up while the pass has every share to ask for, the other node still
has for it. -/
theorem sure_clear {s : Filling} {q : FillPass} {number : ℕ} {members : List Member}
    (hpass : s.pass (ascii "c") = some q)
    (hstage : q.stage = .fetching (asksOfJoined q.held) none ∅) (hfill : q.mayFill ⊆ q.held)
    (hstore : ∀ other, other ≠ ascii "c" → s.store other = stores [ascii "a", ascii "b"] other) :
    Sure oneZone (ascii "c") ⟨101, by decide⟩ s
      (.copying (.clear (ascii "a") number members)) := by
  intro other file hclears p asks walk unfilled hp _ table key rank _ hgives
  obtain rfl := node_of_cleared hclears
  rw [hpass, Option.some.injEq] at hp
  subst hp
  obtain ⟨-, value, hvalue, hle, -⟩ := hgives
  rw [hstore _ (by decide)] at hvalue
  rw [FillPass.Reaches, hstage]
  intro hin _
  refine Or.inl (Or.inr (finds_record (hfill hin) (holds_other ⟨value, hvalue, hle⟩) ?_))
  rw [Function.update_of_ne (by decide), hstore _ (by decide)]

/-- Where it is the other node that joined which has the record, the pass may be sure of it, though
the old node gives it up meanwhile. -/
theorem throughout_sure (asks : List Share) : Throughout (step JsonText.codec oneZone)
    (Sure oneZone (ascii "c") ⟨101, by decide⟩)
    { copying := { store := stores [ascii "a", ascii "b"] } } (passOver givenUp asks) := by
  obtain ⟨hpass, hstore⟩ := pass_toList [ascii "a", ascii "b"]
  have hnames : (mergedStore [ascii "a", ascii "b"]).tables.names = [ascii "t"] := by
    decide +kernel
  have hwalk : ∀ s, ∀ e ∈ oneFile (ascii "c"),
      Sure oneZone (ascii "c") ⟨101, by decide⟩ s e := by
    intro s e he
    simp only [oneFile, List.mem_cons, List.not_mem_nil, or_false] at he
    rcases he with rfl | rfl | rfl | rfl <;> trivial
  have hzones : readZones joined (ascii "c") (ascii "z") ≠ [] := by
    rw [readZones, if_neg (by decide)]
    exact List.cons_ne_nil _ _
  rw [passOver, throughout_append, throughout_append, throughout_append, throughout_append]
  refine ⟨⟨⟨⟨?_, ?_, throughout_nil _ _⟩, ?_⟩, throughout_of_all (fun s e he => ?_) _⟩,
    trivial, throughout_nil _ _⟩
  · rw [toList, throughout_cons, throughout_cons, throughout_cons, throughout_cons]
    exact ⟨trivial, trivial, fun _ hno => absurd hno hzones, trivial, throughout_nil _ _⟩
  · intro _ p zones hp hstage hcourse hin table key rank hwants
    rw [hpass, Option.some.injEq] at hp
    subst hp
    obtain ⟨hkey, listed, -, value, hvalue, hrank⟩ := hwants
    rw [hstore, Function.update_self, hnames]
    exact Or.inr (finds_record hin (holds_other ⟨value, hvalue, hrank.ge⟩)
      (Function.update_of_ne (by decide) _ _))
  · generalize hs : run (step JsonText.codec oneZone)
      { copying := { store := stores [ascii "a", ascii "b"] } } toList = s at hpass hstore
    rw [run_append, hs, run_cons, run_nil, step_list hpass rfl rfl, hstore, Function.update_self,
      hnames]
    refine ⟨fun _ _ hno => (by cases hno), ?_, throughout_nil _ _⟩
    have hasks := pass_setPass_self s (ascii "c")
      { passOfJoined [ascii "a", ascii "b"] with
        held := holdingsOf (ascii "c") joined
        stage := .fetching (asksOfJoined (holdingsOf (ascii "c") joined)) none ∅ }
    refine sure_clear hasks rfl (Finset.Subset.refl _) fun other hother => ?_
    change s.store other = _
    rw [hstore, Function.update_of_ne hother]
  · obtain ⟨_, -, hin⟩ := List.mem_flatMap.mp he
    exact hwalk s e hin

end Filling

end AsyncDatabase
