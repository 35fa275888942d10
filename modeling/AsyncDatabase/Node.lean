import AsyncDatabase.Repository
import AsyncDatabase.Router.Message

/-!
# A node

An open store with what `cluster/etcd_cluster.cpp` keeps beside it: the newest term accepted in each
partition, and which partitions the node holds and vouches for. A route runs on a node, and what
the rest of the cluster answers while it runs is in its `Seams`.
-/

namespace AsyncDatabase

open Bytes (ascii)
open Throwing

/-- `cluster::placement`. -/
structure Placement where
  isLocal : Bool := true
  nodes : List Bytes := []
  deriving DecidableEq, Repr

/-- `cluster::leadership`. -/
structure Leadership where
  known : Bool := false
  isLocal : Bool := false
  node : Bytes := []
  term : ℤ := 0
  deriving DecidableEq, Repr

/-- `cluster::table_key`: the key the tables are led by. -/
def tableKey : Bytes := ascii "/table"

/-- The partition the tables are fenced by. -/
def tablePartition : Partition := partitionOf tableKey

/-- A router with its store and its cluster. -/
structure Node where
  store : Store
  /-- `etcd_cluster::terms`: the newest term seen in each partition. -/
  accepted : PartitionTerms := fun _ => 0
  /-- `etcd_cluster::holding`. -/
  holding : PartitionSet := ∅
  /-- `etcd_cluster::filled`: the partitions the node vouches for. -/
  filled : PartitionSet := ∅
  /-- What the node carried out on its own store: each operation's partition and the term it was
  ordered in, the last one first. No route reads it. -/
  done : List (Partition × ℤ) := []

/-- What the surroundings answer while one request is handled: the database, the cluster and the
nodes a request is sent on to. -/
structure Seams where
  db : Database := {}
  leader : Bytes → Leadership := fun _ => {}
  /-- Whether the answer of `leader` is a claim made for the write, which raises the term. -/
  claimed : Bytes → Bool := fun _ => false
  replicas : Bytes → Placement := fun _ => {}
  copiesOf : Partition → Placement := fun _ => {}
  peers : List Bytes := []
  isAlone : Bool := false
  forward : Bytes → Request → Response := fun _ _ => emptyResponse 204
  /-- What the store calls itself, which is another name each time it is opened. -/
  instanceName : Bytes := []

namespace Seams

/-- The same request to every node named, answered in the order they were named. -/
def forwardAll (w : Seams) (nodes : List Bytes) (request : Request) : List Response :=
  nodes.map fun node => w.forward node request

/-- The node leads every partition in one term, and no other node holds anything. -/
def leading (term : ℤ) : Seams where
  leader := fun _ => { known := true, isLocal := true, term }

end Seams

/-- A route: it answers, or throws what its session answers with. -/
abbrev Route := EStateM StorageError Node

namespace Node

/-- A program on the store as one on the node. -/
def onStore {α : Type} (x : Action α) : Route α := fun n =>
  match x n.store with
  | .ok a s => .ok a { n with store := s }
  | .error e s => .error e { n with store := s }

/-- An operation carried out on this node's own store, written down as the one it was. -/
def carryOut (partition : Partition) (term : ℤ) (x : Action Unit) : Route Unit := do
  onStore x
  modify fun n => { n with done := (partition, term) :: n.done }

/-! ### Terms -/

/-- Where a term stands once another has been seen. -/
def raise (n : Node) (partition : Partition) (term : ℤ) : Node :=
  { n with accepted := Function.update n.accepted partition (max (n.accepted partition) term) }

/-- `raise_term`: whether the term is no older than any seen in its partition. -/
def raiseTerm (partition : Partition) (term : ℤ) : Route Bool := do
  let n ← get
  set (n.raise partition term)
  pure (n.accepted partition ≤ term)

/-- `accept`: what is ordered in no term is not fenced. -/
def accept (key : Bytes) (term : ℤ) : Route Bool :=
  if term = 0 then pure true else raiseTerm (partitionOf key) term

/-- `restore_terms`: the terms a store applied, raised one partition after another. -/
def restoreTerms (n : Node) (applied : PartitionTerms) : Node :=
  { n with accepted := fun partition => max (n.accepted partition) (applied partition) }

/-- The terms a router restores as it is constructed: each partition's own, and for the tables the
newest of the names the schema has. -/
def restoredTerms (s : Store) : PartitionTerms :=
  Function.update s.terms tablePartition <|
    s.tables.names.foldl
      (fun tables name =>
        match s.tables.readEntry name with
        | some entry => if tables < entry.stamp.term then entry.stamp.term else tables
        | none => tables)
      (s.terms tablePartition)

/-- `router::router`: a router over a store that was opened. -/
def construct (s : Store) : Node := ({ store := s } : Node).restoreTerms (restoredTerms s)

/-- The process starts over the store the one before it left behind. -/
def restarted (J : JsonCodec) (n : Node) : Node :=
  construct (after (Store.openStore J {} n.store.disk))

/-- A node over a directory nothing was written into. -/
def fresh (J : JsonCodec) : Node := construct (after (Store.openStore J {} Disk.fresh))

/-- `leader`: what the cluster answers, which raises the term of a claim made for a write. -/
def leader (w : Seams) (key : Bytes) : Route Leadership := do
  let lead := w.leader key
  if w.claimed key then
    let _ ← raiseTerm (partitionOf key) lead.term
  pure lead

/-! ### What a node may answer for -/

def isIncomplete (n : Node) : Bool := decide (¬n.holding ⊆ n.filled)

def isShortOf (n : Node) (partition : Partition) : Bool :=
  decide (partition ∈ n.holding ∧ partition ∉ n.filled)

end Node

end AsyncDatabase
