import AsyncDatabase.Node

/-!
# The membership as one node reads it

Which nodes there are, which partitions this one holds and which of them it vouches for
(`cluster/etcd_cluster.cpp`).
-/

namespace AsyncDatabase

/-- What `etcd_cluster` keeps of the membership it last read. -/
structure Membership where
  members : List Member := []
  generation : ℕ := 0
  /-- No membership is this node holding every partition. -/
  holding : PartitionSet := Finset.univ
  /-- The generation each partition has been held from. -/
  heldSince : Partition → ℕ := fun _ => 0
  filled : PartitionSet := ∅

/-- The partitions a node of this name holds: a membership of fewer than two is the node holding
every key. -/
def holdingsOf (self : Bytes) (members : List Member) : PartitionSet :=
  if members.length < 2 then Finset.univ
  else Finset.univ.filter fun partition =>
    (ownersOf (partitionName partition) members).any (·.node = self)

/-- One turn of the loop of `copies_of` over the owners of a partition. -/
def placeOwner (self zone : Bytes) (place : Placement) (owner : Member) : Placement :=
  if owner.node = self then { place with isLocal := true }
  else if owner.zone = zone then { place with nodes := owner.node :: place.nodes }
  else { place with nodes := place.nodes ++ [owner.node] }

/-- Where the copies of a partition are, for a node of this name and zone: its own zone's first. -/
def copiesOf (self zone : Bytes) (members : List Member) (partition : Partition) : Placement :=
  if members.length < 2 then {}
  else (ownersOf (partitionName partition) members).foldl (placeOwner self zone)
    { isLocal := false }

namespace Membership

/-- `replace_members`: a partition that was not held and is now has been held from here, and one
that is no longer held is no longer vouched for. -/
def replaceMembers (self : Bytes) (m : Membership) (members : List Member) : Membership :=
  let owned := holdingsOf self members
  { members
    generation := m.generation + 1
    holding := owned
    heldSince := fun partition =>
      if partition ∈ owned ∧ partition ∉ m.holding then m.generation + 1 else m.heldSince partition
    filled := m.filled ∩ owned }

/-- `vouch`: of the partitions, those that have been held since before they were fetched. -/
def vouch (m : Membership) (partitions : PartitionSet) (since : ℕ) : Membership :=
  { m with filled := m.filled ∪ partitions.filter fun partition =>
      partition ∈ m.holding ∧ m.heldSince partition ≤ since }

def peers (self : Bytes) (m : Membership) : List Bytes :=
  (m.members.map Member.node).filter (· ≠ self)

end Membership

/-! ### Copies and holdings -/

theorem placeOwner_nodes {self zone : Bytes} {place : Placement} {owner : Member} {node : Bytes} :
    node ∈ (placeOwner self zone place owner).nodes ↔
      node ∈ place.nodes ∨ owner.node ≠ self ∧ owner.node = node := by
  unfold placeOwner
  split_ifs with hself hzone
  · simp [hself]
  · simp [hself, or_comm, eq_comm]
  · simp [hself, eq_comm]

theorem mem_nodes_foldl_placeOwner {self zone : Bytes} {owners : List Member} {place : Placement}
    {node : Bytes} : node ∈ (owners.foldl (placeOwner self zone) place).nodes ↔
      node ∈ place.nodes ∨ ∃ owner ∈ owners, owner.node ≠ self ∧ owner.node = node := by
  induction owners generalizing place with
  | nil => simp
  | cons owner owners ih =>
    rw [List.foldl_cons, ih, placeOwner_nodes]
    simp [or_assoc]

theorem isLocal_foldl_placeOwner {self zone : Bytes} {owners : List Member} {place : Placement} :
    (owners.foldl (placeOwner self zone) place).isLocal = true ↔
      place.isLocal = true ∨ ∃ owner ∈ owners, owner.node = self := by
  induction owners generalizing place with
  | nil => simp
  | cons owner owners ih =>
    rw [List.foldl_cons, ih]
    have hone : (placeOwner self zone place owner).isLocal = true ↔
        place.isLocal = true ∨ owner.node = self := by
      unfold placeOwner
      split_ifs with hself
      · simp [hself]
      · simp [hself]
      · simp [hself]
    rw [hone]
    simp [or_assoc]

/-- A node that has a copy of a partition holds it. -/
theorem mem_holdingsOf_of_copiesOf {self zone node : Bytes} {members : List Member}
    {partition : Partition} (h : node ∈ (copiesOf self zone members partition).nodes) :
    partition ∈ holdingsOf node members := by
  unfold copiesOf at h
  split_ifs at h with hfew
  · cases h
  · rw [mem_nodes_foldl_placeOwner] at h
    obtain ⟨owner, howner, -, hnode⟩ := h.resolve_left (by simp)
    rw [holdingsOf, if_neg hfew, Finset.mem_filter, List.any_eq_true]
    exact ⟨Finset.mem_univ _, owner, howner, decide_eq_true hnode⟩

/-- A node whose own copy a partition is has it among its holdings. -/
theorem isLocal_copiesOf_iff {self zone : Bytes} {members : List Member} {partition : Partition} :
    (copiesOf self zone members partition).isLocal = true ↔
    partition ∈ holdingsOf self members := by
  unfold copiesOf holdingsOf
  split_ifs
  · simp
  · rw [isLocal_foldl_placeOwner, Finset.mem_filter, List.any_eq_true]
    simp

/-- A partition that no other node has a copy of is the node's own. -/
theorem isLocal_of_nodes_copiesOf {self zone : Bytes} {members : List Member}
    {partition : Partition} (h : (copiesOf self zone members partition).nodes = []) :
    (copiesOf self zone members partition).isLocal = true := by
  by_cases hfew : members.length < 2
  · rw [copiesOf, if_pos hfew]
  · rw [copiesOf, if_neg hfew] at h ⊢
    obtain ⟨listed, hlisted⟩ : ∃ listed, listed ∈ members :=
      List.exists_mem_of_length_pos (by omega)
    -- the zone of any member has an owner of the partition
    have howner : (⟨ownerOf (partitionName partition) (nodesOfZone members listed.zone),
        listed.zone⟩ : Member) ∈ ownersOf (partitionName partition) members :=
      mem_ownersOf.mpr ⟨List.ne_nil_of_mem (mem_nodesOfZone.mpr hlisted), rfl⟩
    refine isLocal_foldl_placeOwner.mpr (Or.inr ⟨_, howner, ?_⟩)
    by_contra hne
    exact List.eq_nil_iff_forall_not_mem.mp h _
      (mem_nodes_foldl_placeOwner.mpr (Or.inr ⟨_, howner, hne, rfl⟩))

/-! ### Nodes that agree on one membership -/

/-- A membership of two zones or more, in which every node has a name of its own, and the zone each
node was configured in. -/
structure Agreed where
  members : List Member
  zone : Bytes → Bytes
  nodup : (members.map Member.node).Nodup
  named : ∀ listed ∈ members, listed.node ≠ []
  zones : ∃ listed ∈ members, ∃ other ∈ members, listed.zone ≠ other.zone

namespace Agreed

variable (a : Agreed)

/-- Who has a copy of a partition. -/
def owners (partition : Partition) : List Member := ownersOf (partitionName partition) a.members

/-- Where a node finds the copies of a partition. -/
def copies (self : Bytes) (partition : Partition) : Placement :=
  copiesOf self (a.zone self) a.members partition

theorem two_le_length : 2 ≤ a.members.length := by
  obtain ⟨listed, hlisted, other, hother, hne⟩ := a.zones
  by_contra hfew
  have hone : a.members.length = 1 := by
    have hpos := List.length_pos_of_mem hlisted
    omega
  obtain ⟨only, honly⟩ := List.length_eq_one_iff.mp hone
  rw [honly, List.mem_singleton] at hlisted hother
  rw [hlisted, hother] at hne
  exact hne rfl

/-- The owner of a partition in a zone is a member of it. -/
theorem mem_members_of_mem_owners {partition : Partition} {owner : Member}
    (h : owner ∈ a.owners partition) : owner ∈ a.members := by
  obtain ⟨hne, hnode⟩ := mem_ownersOf.mp h
  have hnamed : ∀ node ∈ nodesOfZone a.members owner.zone, node ≠ [] := fun node hnode =>
    a.named _ (mem_nodesOfZone.mp hnode)
  have hmem := ownerOf_mem (ownerOf_ne_nil (partitionName partition) hne hnamed)
  rw [← hnode] at hmem
  exact mem_nodesOfZone.mp hmem

theorem nodup_owners (partition : Partition) : ((a.owners partition).map Member.node).Nodup := by
  have hzones := nodup_zones_ownersOf (partitionName partition) a.members
  refine List.Nodup.map_on (fun owner howner other hother hnode => ?_) (List.Nodup.of_map _ hzones)
  exact List.inj_on_of_nodup_map a.nodup (a.mem_members_of_mem_owners howner)
    (a.mem_members_of_mem_owners hother) hnode

/-- Whoever asks, somebody else has a copy. -/
theorem exists_other_owner (self : Bytes) (partition : Partition) :
    ∃ owner ∈ a.owners partition, owner.node ≠ self := by
  have howner : ∀ listed ∈ a.members, ∃ owner ∈ a.owners partition, owner.zone = listed.zone := by
    intro listed hlisted
    let nodes := nodesOfZone a.members listed.zone
    refine ⟨⟨ownerOf (partitionName partition) nodes, listed.zone⟩, mem_ownersOf.mpr ⟨?_, rfl⟩, rfl⟩
    exact List.ne_nil_of_mem (mem_nodesOfZone.mpr hlisted)
  obtain ⟨listed, hlisted, other, hother, hne⟩ := a.zones
  obtain ⟨owner, hmem, hzone⟩ := howner listed hlisted
  obtain ⟨owner', hmem', hzone'⟩ := howner other hother
  by_cases hself : owner.node = self
  · refine ⟨owner', hmem', fun hself' => hne ?_⟩
    have heq := List.inj_on_of_nodup_map (a.nodup_owners partition) hmem hmem'
      (hself.trans hself'.symm)
    rw [← hzone, ← hzone', heq]
  · exact ⟨owner, hmem, hself⟩

theorem mem_nodes_copies {self node : Bytes} {partition : Partition} :
    node ∈ (a.copies self partition).nodes ↔
      node ≠ self ∧ ∃ owner ∈ a.owners partition, owner.node = node := by
  have hfew : ¬a.members.length < 2 := not_lt.mpr a.two_le_length
  rw [copies, copiesOf, if_neg hfew, mem_nodes_foldl_placeOwner]
  constructor
  · rintro (hno | ⟨owner, howner, hne, rfl⟩)
    · cases hno
    · exact ⟨hne, owner, howner, rfl⟩
  · rintro ⟨hne, owner, howner, rfl⟩
    exact Or.inr ⟨owner, howner, hne, rfl⟩

theorem isLocal_copies {self : Bytes} {partition : Partition} :
    (a.copies self partition).isLocal = true ↔ ∃ owner ∈ a.owners partition, owner.node = self := by
  have hfew : ¬a.members.length < 2 := not_lt.mpr a.two_le_length
  rw [copies, copiesOf, if_neg hfew, isLocal_foldl_placeOwner]
  simp [owners]

theorem nodup_nodes_copies (self : Bytes) (partition : Partition) :
    (a.copies self partition).nodes.Nodup := by
  have hrun : ∀ (owners : List Member) (place : Placement),
      (owners.foldl (placeOwner self (a.zone self)) place).nodes.Perm
        (place.nodes ++ (owners.map Member.node).filter (· ≠ self)) := by
    intro owners
    induction owners with
    | nil => intro place; simp
    | cons owner owners ih =>
      intro place
      refine (ih _).trans ?_
      unfold placeOwner
      rw [List.map_cons]
      split_ifs with hself hzone
      · rw [List.filter_cons_of_neg (by simp [hself])]
      · rw [List.filter_cons_of_pos (by simp [hself])]
        exact List.perm_middle.symm
      · rw [List.filter_cons_of_pos (by simp [hself]), List.append_assoc]
        rfl
  have hfew : ¬a.members.length < 2 := not_lt.mpr a.two_le_length
  rw [copies, copiesOf, if_neg hfew]
  refine (hrun _ _).nodup_iff.mpr ?_
  exact (a.nodup_owners partition).filter _

/-- **Two nodes that each send a write to the other copies send it to a common one**, unless there
are no copies but their own two. -/
theorem shared_copy (self other : Bytes) (partition : Partition) :
    (∃ node ∈ (a.copies self partition).nodes, node ∈ (a.copies other partition).nodes) ∨
      self ≠ other ∧ (a.copies self partition).isLocal = true ∧
        (a.copies other partition).isLocal = true ∧ (a.copies self partition).nodes = [other] ∧
        (a.copies other partition).nodes = [self] := by
  -- where no copy is common, every owner is one of the two
  by_cases hshared : ∃ node ∈ (a.copies self partition).nodes,
      node ∈ (a.copies other partition).nodes
  · exact Or.inl hshared
  have hone : ∀ owner ∈ a.owners partition, owner.node = self ∨ owner.node = other := by
    intro owner howner
    by_contra hno
    rw [not_or] at hno
    exact hshared ⟨owner.node, a.mem_nodes_copies.mpr ⟨hno.1, owner, howner, rfl⟩,
      a.mem_nodes_copies.mpr ⟨hno.2, owner, howner, rfl⟩⟩
  have hof : ∀ asked answered : Bytes, (∀ owner ∈ a.owners partition, owner.node = asked ∨
      owner.node = answered) → answered ≠ asked ∧
        (∃ owner ∈ a.owners partition, owner.node = answered) ∧
        (a.copies asked partition).nodes = [answered] := by
    intro asked answered htwo
    obtain ⟨owner, howner, hne⟩ := a.exists_other_owner asked partition
    have hnode : owner.node = answered := (htwo owner howner).resolve_left hne
    have honly : ∀ node ∈ (a.copies asked partition).nodes, node = answered := by
      intro node hmem
      obtain ⟨hne', owner', howner', rfl⟩ := a.mem_nodes_copies.mp hmem
      exact (htwo owner' howner').resolve_left hne'
    have hmem : answered ∈ (a.copies asked partition).nodes :=
      a.mem_nodes_copies.mpr ⟨hnode ▸ hne, owner, howner, hnode⟩
    refine ⟨hnode ▸ hne, ⟨owner, howner, hnode⟩, ?_⟩
    have hlen := List.eq_replicate_of_mem honly
    have hnodup := a.nodup_nodes_copies asked partition
    rw [hlen, List.nodup_replicate] at hnodup
    have hpos := List.length_pos_of_mem hmem
    rw [hlen, show (a.copies asked partition).nodes.length = 1 by omega]
    rfl
  obtain ⟨hne, hother, hnodes⟩ := hof self other hone
  obtain ⟨-, hself, hnodes'⟩ := hof other self fun owner howner => (hone owner howner).symm
  exact Or.inr ⟨hne.symm, a.isLocal_copies.mpr hself, a.isLocal_copies.mpr hother, hnodes, hnodes'⟩

end Agreed

end AsyncDatabase
