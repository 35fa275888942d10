import AsyncDatabase.Record
import AsyncDatabase.Library.Maps
import Mathlib.Data.Fintype.Basic
import Mathlib.Data.Fintype.Card

/-!
# Partitions and who owns them

How a key is placed (`cluster/partition.h`, `cluster/partition.cpp`): a key belongs to one of 256
partitions, every zone has one owner of a partition, and the leader is the owner across the whole
membership. All of it is rendezvous hashing: the node that scores a key highest owns it.
-/

namespace AsyncDatabase

open Bytes (ascii)

def partitionCount : ℕ := 256

/-- The number of a partition. -/
abbrev Partition := Fin partitionCount

/-- `cluster::partition_set`. -/
abbrev PartitionSet := Finset Partition

/-- `cluster::partition_terms`: the newest term applied in each partition. -/
abbrev PartitionTerms := Partition → ℤ

/-- `cluster::member`. -/
structure Member where
  node : Bytes
  zone : Bytes
  deriving DecidableEq, Repr

/-! ### Hashing -/

def fnvOffset : UInt64 := 14695981039346656037

def fnvPrime : UInt64 := 1099511628211

def hash (text : Bytes) (seed : UInt64) : UInt64 :=
  text.foldl (fun hashed byte => (hashed ^^^ byte.toUInt64) * fnvPrime) seed

def mix (hashed : UInt64) : UInt64 :=
  let hashed := hashed ^^^ (hashed >>> 33)
  let hashed := hashed * 0xff51afd7ed558ccd
  let hashed := hashed ^^^ (hashed >>> 33)
  let hashed := hashed * 0xc4ceb9fe1a85ec53
  hashed ^^^ (hashed >>> 33)

/-- The partition a key belongs to, which its partition key alone decides. -/
def partitionOf (key : Bytes) : Partition :=
  ⟨(mix (hash (Record.partitionKey key) fnvOffset)).toNat % partitionCount,
    Nat.mod_lt _ (by decide)⟩

def partitionName (partition : Partition) : Bytes :=
  ascii "partition/" ++ Bytes.decimal partition

/-- What a node scores for a key: the node seeds the hash of the key. -/
def score (node key : Bytes) : UInt64 := mix (hash key (hash node fnvOffset))

/-! ### Owners -/

/-- One turn of the loop of `owner_of`: the owner so far and the score it owns with. -/
def ownerStep (key : Bytes) (best : Bytes × UInt64) (node : Bytes) : Bytes × UInt64 :=
  let scored := score node key
  if best.1 = [] ∨ best.2 < scored ∨ (scored = best.2 ∧ node < best.1) then (node, scored)
  else best

/-- The node of a list that owns a key, and the empty name for an empty list. -/
def ownerOf (key : Bytes) (nodes : List Bytes) : Bytes := (nodes.foldl (ownerStep key) ([], 0)).1

/-- The nodes of one zone, in the order the membership lists them. -/
def nodesOfZone (members : List Member) (zone : Bytes) : List Bytes :=
  (members.filter (·.zone = zone)).map Member.node

/-- A zone's list of nodes with one more node on its end. -/
def listNode (zones : Std.ExtTreeMap Bytes (List Bytes)) (listed : Member) :
    Std.ExtTreeMap Bytes (List Bytes) :=
  zones.insert listed.zone (zones.getD listed.zone [] ++ [listed.node])

/-- The owner of a key in each zone, the zones in the order of their names. -/
def ownersOf (key : Bytes) (members : List Member) : List Member :=
  (members.foldl listNode ∅).toList.map fun zone => ⟨ownerOf key zone.2, zone.1⟩

def leaderOf (key : Bytes) (members : List Member) : Bytes := ownerOf key (members.map Member.node)

/-! ### Whom to ask for a share -/

/-- The other nodes zone by zone: this node's own zone first, whether or not anybody else is in it,
and the others in the order of their names. -/
def zonesOf (members : List Member) (node zone : Bytes) : List (List Bytes) :=
  let grouped := (members.filter (·.node ≠ node)).foldl listNode
    ((∅ : Std.ExtTreeMap Bytes (List Bytes)).insert zone [])
  grouped.getD zone [] :: (grouped.toList.filter (·.1 ≠ zone)).map Prod.snd

/-- The node of a list that a partition is asked of, and nobody where the list is empty. -/
def holderIn (nodes : List Bytes) (partition : Partition) : Option Bytes :=
  let holder := ownerOf (partitionName partition) nodes
  if holder = [] then none else some holder

/-- One partition more for the node that holds it. -/
def setHolder (nodes : List Bytes) (holders : Std.ExtTreeMap Bytes PartitionSet)
    (partition : Partition) : Std.ExtTreeMap Bytes PartitionSet :=
  match holderIn nodes partition with
  | none => holders
  | some holder => holders.insert holder (insert partition (holders.getD holder ∅))

/-- Which of the partitions each node of a zone is asked for. -/
def holdersIn (partitions : PartitionSet) (nodes : List Bytes) :
    Std.ExtTreeMap Bytes PartitionSet :=
  ((List.finRange partitionCount).filter (· ∈ partitions)).foldl (setHolder nodes) ∅

/-- Two answers of `holdersIn` as one, a node that is in both asked for the partitions of both. -/
def joinHolders (holders holding : Std.ExtTreeMap Bytes PartitionSet) :
    Std.ExtTreeMap Bytes PartitionSet :=
  holding.toList.foldl (fun joined held => joined.insert held.1 (joined.getD held.1 ∅ ∪ held.2))
    holders

/-- Which of the partitions each node of the membership is asked for by a node of this name and
zone. -/
def holdersOf (partitions : PartitionSet) (members : List Member) (node zone : Bytes) :
    Std.ExtTreeMap Bytes PartitionSet :=
  (zonesOf members node zone).foldl
    (fun holders inZone => joinHolders holders (holdersIn partitions inZone)) ∅

/-! ### The owner of a key -/

theorem ownerStep_mem (key : Bytes) (best : Bytes × UInt64) (node : Bytes) :
    (ownerStep key best node).1 = best.1 ∨ (ownerStep key best node).1 = node := by
  unfold ownerStep
  dsimp only
  split_ifs
  · exact Or.inr rfl
  · exact Or.inl rfl

theorem foldl_ownerStep_mem (key : Bytes) (nodes : List Bytes) (best : Bytes × UInt64) :
    (nodes.foldl (ownerStep key) best).1 = best.1 ∨
    (nodes.foldl (ownerStep key) best).1 ∈ nodes := by
  induction nodes generalizing best with
  | nil => exact Or.inl rfl
  | cons node nodes ih =>
    rw [List.foldl_cons]
    rcases ih (ownerStep key best node) with h | h
    · rw [h]
      rcases ownerStep_mem key best node with h' | h'
      · exact Or.inl h'
      · exact Or.inr (List.mem_cons.mpr (Or.inl h'))
    · exact Or.inr (List.mem_cons_of_mem _ h)

/-- An owner with a name is a node of the list. -/
theorem ownerOf_mem {key : Bytes} {nodes : List Bytes} (h : ownerOf key nodes ≠ []) :
    ownerOf key nodes ∈ nodes :=
  (foldl_ownerStep_mem key nodes ([], 0)).resolve_left h

/-- Among nodes that all have names somebody owns the key. -/
theorem ownerOf_ne_nil (key : Bytes) {nodes : List Bytes} (hne : nodes ≠ [])
    (hnames : ∀ node ∈ nodes, node ≠ []) : ownerOf key nodes ≠ [] := by
  obtain ⟨node, rest, rfl⟩ := List.exists_cons_of_ne_nil hne
  have hstep : ownerStep key ([], 0) node = (node, score node key) := by
    unfold ownerStep
    rw [if_pos (Or.inl rfl)]
  rw [ownerOf, List.foldl_cons, hstep]
  rcases foldl_ownerStep_mem key rest (node, score node key) with h | h
  · rw [h]
    exact hnames node List.mem_cons_self
  · exact hnames _ (List.mem_cons_of_mem _ h)

/-! ### Zones as the source groups them -/

theorem nodesOfZone_append_singleton (members : List Member) (listed : Member) (zone : Bytes) :
    nodesOfZone (members ++ [listed]) zone =
      if listed.zone = zone then nodesOfZone members zone ++ [listed.node]
      else nodesOfZone members zone := by
  unfold nodesOfZone
  split_ifs with h <;> simp [List.filter_append, h]

theorem mem_nodesOfZone {members : List Member} {zone node : Bytes} :
    node ∈ nodesOfZone members zone ↔ ⟨node, zone⟩ ∈ members := by
  unfold nodesOfZone
  rw [List.mem_map]
  constructor
  · rintro ⟨⟨n, z⟩, hm, rfl⟩
    rw [List.mem_filter, decide_eq_true_iff] at hm
    obtain ⟨hm, rfl⟩ := hm
    exact hm
  · intro h
    exact ⟨⟨node, zone⟩, List.mem_filter.mpr ⟨h, decide_eq_true rfl⟩, rfl⟩

/-- Grouping puts a zone's nodes behind what was there for it, in the order they were listed. -/
theorem getElem?_foldl_listNode (members : List Member) (zones : Std.ExtTreeMap Bytes (List Bytes))
    (zone : Bytes) :
    (members.foldl listNode zones)[zone]? =
      if nodesOfZone members zone = [] then zones[zone]?
      else some (zones.getD zone [] ++ nodesOfZone members zone) := by
  induction members using List.reverseRecOn with
  | nil => simp [nodesOfZone]
  | append_singleton members listed ih =>
    have hgetD : (members.foldl listNode zones).getD zone [] =
        zones.getD zone [] ++ nodesOfZone members zone := by
      rw [Std.ExtTreeMap.getD_eq_getD_getElem?, ih]
      split_ifs with hnil
      · rw [hnil, List.append_nil, Std.ExtTreeMap.getD_eq_getD_getElem?]
      · rfl
    rw [List.foldl_append, List.foldl_cons, List.foldl_nil, listNode,
      Std.ExtTreeMap.getElem?_insert, nodesOfZone_append_singleton]
    by_cases hz : listed.zone = zone
    · subst hz
      rw [if_pos (Std.ReflCmp.compare_self), if_pos rfl, hgetD, List.append_assoc, if_neg (by simp)]
    · rw [if_neg (by simpa using hz), if_neg hz, ih]

/-- The owners of a key: one in each zone that has a node. -/
theorem mem_ownersOf {key : Bytes} {members : List Member} {owner : Member} :
    owner ∈ ownersOf key members ↔ nodesOfZone members owner.zone ≠ [] ∧
      owner.node = ownerOf key (nodesOfZone members owner.zone) := by
  obtain ⟨node, zone⟩ := owner
  have hgrouped : ∀ nodes, (members.foldl listNode ∅)[zone]? = some nodes ↔
      nodesOfZone members zone ≠ [] ∧ nodesOfZone members zone = nodes := by
    intro nodes
    rw [getElem?_foldl_listNode]
    split_ifs with hnil
    · simp [hnil]
    · simp [hnil, Std.ExtTreeMap.getD_eq_getD_getElem?]
  simp only [ownersOf, List.mem_map, Prod.exists, Member.mk.injEq,
    Std.ExtTreeMap.mem_toList_iff_getElem?_eq_some]
  constructor
  · rintro ⟨zone', nodes, hnodes, hnode, rfl⟩
    obtain ⟨hne, rfl⟩ := (hgrouped nodes).mp hnodes
    exact ⟨hne, hnode.symm⟩
  · rintro ⟨hne, hnode⟩
    exact ⟨zone, _, (hgrouped _).mpr ⟨hne, rfl⟩, hnode.symm, rfl⟩

theorem nodup_zones_ownersOf (key : Bytes) (members : List Member) :
    ((ownersOf key members).map Member.zone).Nodup := by
  rw [ownersOf, List.map_map]
  exact Maps.nodup_keys_toList (members.foldl listNode ∅)

end AsyncDatabase
