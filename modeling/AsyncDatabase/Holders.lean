import AsyncDatabase.Owners

/-!
# Whom a share is asked of

`holders_of` groups the other nodes by zone, draws the owner of every partition of a share among the
nodes of each zone, and puts what the zones answer together by node. `holdersOf_each_zone` says whom
that asks: for each partition the node of each zone that would own it if the asking node were not
there.
-/

namespace AsyncDatabase

open Bytes (ascii)

/-- The nodes without the one that asks. -/
def othersOf (members : List Member) (node : Bytes) : List Member := members.filter (·.node ≠ node)

/-- A map of holders names exactly these, and no node for nothing. -/
structure NamesHolders (holders : Std.ExtTreeMap Bytes PartitionSet)
    (asked : Bytes → Partition → Prop) : Prop where
  iff : ∀ holder partition, partition ∈ holders.getD holder ∅ ↔ asked holder partition
  nonempty : ∀ holder ∈ holders, ∃ partition, asked holder partition

variable {members : List Member} {partitions : PartitionSet} {nodes : List Bytes}

theorem NamesHolders.congr {holders : Std.ExtTreeMap Bytes PartitionSet}
    {asked other : Bytes → Partition → Prop}
    (h : NamesHolders holders asked)
    (hsame : ∀ holder partition, asked holder partition ↔ other holder partition) :
    NamesHolders holders other where
  iff holder partition := (h.iff holder partition).trans (hsame holder partition)
  nonempty holder hmem := by
    obtain ⟨partition, hasked⟩ := h.nonempty holder hmem
    exact ⟨partition, (hsame holder partition).mp hasked⟩

theorem namesHolders_empty : NamesHolders ∅ fun _ _ => False where
  iff holder partition := by simp
  nonempty holder hmem := absurd hmem Std.ExtTreeMap.not_mem_empty

/-- A map is known by the partitions it has for each node. -/
theorem NamesHolders.of_insert {holders changed : Std.ExtTreeMap Bytes PartitionSet}
    {asked : Bytes → Partition → Prop} (h : NamesHolders holders asked)
    (more : Bytes → PartitionSet) (hchanged : ∀ holder, changed[holder]? =
      if more holder = ∅ then holders[holder]? else some (holders.getD holder ∅ ∪ more holder)) :
    NamesHolders changed fun holder partition => asked holder partition ∨
    partition ∈ more holder := by
  have hgetD : ∀ holder, changed.getD holder ∅ = holders.getD holder ∅ ∪ more holder := by
    intro holder
    rw [Std.ExtTreeMap.getD_eq_getD_getElem?, hchanged]
    split_ifs with hnone
    · rw [hnone, Finset.union_empty, Std.ExtTreeMap.getD_eq_getD_getElem?]
    · rfl
  refine ⟨fun holder partition => ?_, fun holder hmem => ?_⟩
  · rw [hgetD, Finset.mem_union, h.iff]
  · by_cases hnone : more holder = ∅
    · rw [← Std.ExtTreeMap.isSome_getElem?_iff_mem, hchanged, if_pos hnone,
        Std.ExtTreeMap.isSome_getElem?_iff_mem] at hmem
      obtain ⟨partition, hasked⟩ := h.nonempty holder hmem
      exact ⟨partition, .inl hasked⟩
    · obtain ⟨partition, hmore⟩ := Finset.nonempty_iff_ne_empty.mpr hnone
      exact ⟨partition, .inr hmore⟩

/-- One partition more of one zone. -/
theorem NamesHolders.setHolder {holders : Std.ExtTreeMap Bytes PartitionSet}
    {asked : Bytes → Partition → Prop}
    (h : NamesHolders holders asked) (nodes : List Bytes) (next : Partition) :
    NamesHolders (setHolder nodes holders next) fun holder partition =>
      asked holder partition ∨ (partition = next ∧ holderIn nodes partition = some holder) := by
  have hchanged : ∀ holder, (AsyncDatabase.setHolder nodes holders next)[holder]? =
      if (if holderIn nodes next = some holder then {next} else (∅ : PartitionSet)) = ∅
      then holders[holder]?
      else some (holders.getD holder ∅ ∪ if holderIn nodes next =
        some holder then {next} else ∅) := by
    intro holder
    unfold AsyncDatabase.setHolder
    cases hholder : holderIn nodes next with
    | none => simp
    | some held =>
      rw [Std.ExtTreeMap.getElem?_insert]
      by_cases hsame : held = holder
      · subst hsame
        simp
      · simp [hsame]
  refine (h.of_insert _ hchanged).congr fun holder partition => or_congr_right ?_
  split_ifs with hholder
  · rw [Finset.mem_singleton]
    exact ⟨fun heq => ⟨heq, heq ▸ hholder⟩, fun hmem => hmem.1⟩
  · refine iff_of_false (Finset.notMem_empty _) fun hmem => hholder ?_
    rw [← hmem.1]
    exact hmem.2

/-- One zone names the owner of each partition of the share. -/
theorem names_holdersIn (partitions : PartitionSet) (nodes : List Bytes) :
    NamesHolders (holdersIn partitions nodes) fun holder partition =>
      partition ∈ partitions ∧ holderIn nodes partition = some holder := by
  have hfold : ∀ (l : List Partition) (holders : Std.ExtTreeMap Bytes PartitionSet)
      (asked : Bytes → Partition → Prop), NamesHolders holders asked →
      NamesHolders (l.foldl (AsyncDatabase.setHolder nodes) holders) fun holder partition =>
        asked holder partition ∨ (partition ∈ l ∧ holderIn nodes partition = some holder) := by
    intro l
    induction l with
    | nil =>
      intro holders asked h
      exact h.congr fun holder partition => by simp
    | cons next l ih =>
      intro holders asked h
      refine (ih _ _ (h.setHolder nodes next)).congr fun holder partition => ?_
      rw [List.mem_cons, or_assoc, or_and_right]
  refine (hfold _ ∅ _ namesHolders_empty).congr fun holder partition => ?_
  simp [List.mem_filter]

/-- Two answers as one. -/
theorem NamesHolders.join {holders holding : Std.ExtTreeMap Bytes PartitionSet}
    {asked other : Bytes → Partition → Prop} (h : NamesHolders holders asked)
    (h' : NamesHolders holding other) :
    NamesHolders (joinHolders holders holding) fun holder partition =>
      asked holder partition ∨ other holder partition := by
  have hlook : ∀ holder : Bytes, (joinHolders holders holding)[holder]? =
      holding[holder]?.elim holders[holder]? fun held => some (holders[holder]?.getD ∅ ∪ held) := by
    intro holder
    refine (Maps.look_foldl (fun (m : Std.ExtTreeMap Bytes PartitionSet) holder => m[holder]?)
      (fun joined held => joined.insert held.1 (joined.getD held.1 ∅ ∪ held.2))
      (fun _ held before => some (before.getD ∅ ∪ held)) holding (fun m holder held _ => ?_)
      (fun m holder held other _ hne => ?_) holders holder).trans ?_
    · dsimp only
      rw [Std.ExtTreeMap.getElem?_insert_self, Std.ExtTreeMap.getD_eq_getD_getElem?]
    · dsimp only
      rw [Std.ExtTreeMap.getElem?_insert, if_neg (by simpa using hne.symm)]
    · cases holding[holder]? <;> rfl
  refine (h.of_insert (fun holder => holding.getD holder ∅) fun holder => ?_).congr
    fun holder partition => or_congr_right (h'.iff holder partition)
  rw [hlook, Std.ExtTreeMap.getD_eq_getD_getElem?, Std.ExtTreeMap.getD_eq_getD_getElem?]
  cases hheld : holding[holder]? with
  | none => rfl
  | some held =>
    -- a node of the answer is asked for something
    have hmem : holder ∈ holding := by
      rw [← Std.ExtTreeMap.isSome_getElem?_iff_mem, hheld]
      rfl
    obtain ⟨partition, hasked⟩ := h'.nonempty holder hmem
    have hin := (h'.iff holder partition).mpr hasked
    rw [Std.ExtTreeMap.getD_eq_getD_getElem?, hheld] at hin
    rw [if_neg (Finset.ne_empty_of_mem hin)]
    rfl

/-! ### The zones of a membership -/

/-- The lists of nodes that are asked: every zone of the others. -/
theorem mem_zonesOf {node zone : Bytes} (hne : nodes ≠ []) :
    nodes ∈ zonesOf members node zone ↔
      ∃ inZone, nodes = nodesOfZone (othersOf members node) inZone := by
  let grouped := (othersOf members node).foldl listNode
    ((∅ : Std.ExtTreeMap Bytes (List Bytes)).insert zone [])
  have hgrouped : ∀ inZone : Bytes, grouped[inZone]? =
      if nodesOfZone (othersOf members node) inZone = [] ∧ inZone ≠ zone then none
      -- each zone has its own nodes, and the own zone has an entry even where it has none
      else some (nodesOfZone (othersOf members node) inZone) := by
    intro inZone
    rw [getElem?_foldl_listNode]
    by_cases hzone : zone = inZone
    · subst hzone
      by_cases hnil : nodesOfZone (othersOf members node) zone = [] <;>
        simp [hnil, Std.ExtTreeMap.getD_eq_getD_getElem?]
    · by_cases hnil : nodesOfZone (othersOf members node) inZone = [] <;>
        simp [hnil, hzone, Ne.symm hzone, Std.ExtTreeMap.getD_eq_getD_getElem?]
  have hown : grouped.getD zone [] = nodesOfZone (othersOf members node) zone := by
    rw [Std.ExtTreeMap.getD_eq_getD_getElem?, hgrouped, if_neg (by simp)]
    rfl
  change nodes ∈ grouped.getD zone [] :: (grouped.toList.filter (·.1 ≠ zone)).map Prod.snd ↔ _
  rw [List.mem_cons, hown]
  constructor
  · rintro (rfl | hmem)
    · exact ⟨zone, rfl⟩
    · obtain ⟨⟨inZone, _⟩, hlisted, rfl⟩ := List.mem_map.mp hmem
      have hlook := Std.ExtTreeMap.mem_toList_iff_getElem?_eq_some.mp (List.mem_filter.mp hlisted).1
      rw [hgrouped] at hlook
      split_ifs at hlook
      exact ⟨inZone, (Option.some.inj hlook).symm⟩
  · rintro ⟨inZone, rfl⟩
    by_cases hzone : inZone = zone
    · exact .inl (by rw [hzone])
    · refine .inr (List.mem_map.mpr
        ⟨(inZone, _), List.mem_filter.mpr ⟨?_, by simpa using hzone⟩, rfl⟩)
      rw [Std.ExtTreeMap.mem_toList_iff_getElem?_eq_some, hgrouped, if_neg fun h => hne h.1]
      rfl

/-- A list names the owner among its nodes. -/
theorem holderIn_eq_some_iff {partition : Partition} {holder : Bytes} :
    holderIn nodes partition = some holder ↔
      holder = ownerOf (partitionName partition) nodes ∧ holder ≠ [] := by
  unfold holderIn
  dsimp only
  split_ifs with hnone
  · refine iff_of_false (fun h => by cases h) fun h => h.2 (h.1.trans hnone)
  · rw [Option.some.injEq]
    exact ⟨fun h => ⟨h.symm, h ▸ hnone⟩, fun h => h.1.symm⟩

/-- A share is asked of the owners among the others. -/
theorem names_holdersOf (hnames : ∀ listed ∈ members, listed.node ≠ []) (partitions : PartitionSet)
    (node zone : Bytes) :
    NamesHolders (holdersOf partitions members node zone) fun holder partition =>
      partition ∈ partitions ∧
        ∃ owner ∈ ownersOf (partitionName partition) (othersOf members node),
          owner.node = holder := by
  -- a holder of one zone or of another, zone by zone
  have hfold : ∀ (l : List (List Bytes)) (holders : Std.ExtTreeMap Bytes PartitionSet)
      (asked : Bytes → Partition → Prop), NamesHolders holders asked →
      NamesHolders (l.foldl (fun holders inZone =>
        joinHolders holders (holdersIn partitions inZone)) holders)
        fun holder partition => asked holder partition ∨
          (partition ∈ partitions ∧ ∃ nodes ∈ l, holderIn nodes partition = some holder) := by
    intro l
    induction l with
    | nil =>
      intro holders asked h
      exact h.congr fun holder partition => by simp
    | cons nodes l ih =>
      intro holders asked h
      refine (ih _ _ (h.join (names_holdersIn partitions nodes))).congr fun holder partition => ?_
      rw [List.exists_mem_cons_iff, and_or_left, or_assoc]
  have hothers : ∀ listed ∈ othersOf members node, listed.node ≠ [] :=
    fun listed hlisted => hnames listed (List.mem_of_mem_filter hlisted)
  refine (hfold _ ∅ _ namesHolders_empty).congr fun holder partition => ?_
  rw [false_or]
  refine and_congr_right fun _ => ⟨?_, ?_⟩
  · -- the node of a zone that is asked is the owner there
    rintro ⟨nodes, hnodes, hholder⟩
    obtain ⟨rfl, hne⟩ := holderIn_eq_some_iff.mp hholder
    have hsome : nodes ≠ [] := by
      rintro rfl
      exact hne rfl
    obtain ⟨inZone, rfl⟩ := (mem_zonesOf hsome).mp hnodes
    exact ⟨⟨_, inZone⟩, mem_ownersOf.mpr ⟨hsome, rfl⟩, rfl⟩
  · rintro ⟨owner, howner, rfl⟩
    obtain ⟨hsome, hnode⟩ := mem_ownersOf.mp howner
    refine ⟨_, (mem_zonesOf hsome).mpr ⟨owner.zone, rfl⟩, holderIn_eq_some_iff.mpr ⟨hnode, ?_⟩⟩
    rw [hnode]
    exact ownerOf_ne_nil _ hsome (names_nodesOfZone hothers)

theorem nodesOfZone_othersOf (members : List Member) (node inZone : Bytes) :
    nodesOfZone (othersOf members node) inZone =
      (nodesOfZone members inZone).filter (· ≠ node) := by
  unfold nodesOfZone othersOf
  rw [List.filter_filter, List.filter_map, List.filter_filter]
  refine congrArg (List.map Member.node) (List.filter_congr fun listed _ => ?_)
  exact Bool.and_comm _ _

/-- **Whom a share is asked of.** For each of its partitions, and for nothing else, one node of
every zone that has somebody else: the owner of the partition as the zone would be without the node
that asks, which is nobody's to ask itself. -/
theorem holdersOf_each_zone {members : List Member} (hnames : ∀ listed ∈ members, listed.node ≠ [])
    (hnodup : (members.map Member.node).Nodup) (partitions : PartitionSet) (node zone : Bytes) :
    (∀ holder ∈ holdersOf partitions members node zone, holder ≠ node ∧
      holder ∈ members.map Member.node ∧
      ((holdersOf partitions members node zone).getD holder ∅).Nonempty ∧
      (holdersOf partitions members node zone).getD holder ∅ ⊆ partitions) ∧
    (∀ partition ∈ partitions, ∀ inZone,
      (∃ listed ∈ members, listed.zone = inZone ∧ listed.node ≠ node) →
      ∃ owner : Member, owner ∈ members ∧ owner.zone = inZone ∧
        owner.node = ownerOf (partitionName partition)
          ((nodesOfZone members inZone).filter (· ≠ node)) ∧
        ∀ listed ∈ members, listed.zone = inZone →
          (partition ∈ (holdersOf partitions members node zone).getD listed.node
            ∅ ↔ listed = owner)) ∧
    (∀ partition ∈ partitions, ∀ listed ∈ members,
      partition ∈ (holdersOf partitions members node zone).getD listed.node ∅ ↔
        listed ∈ ownersOf (partitionName partition) (members.filter (·.node ≠ node))) := by
  have hanswer := names_holdersOf hnames partitions node zone
  have hothers : ∀ listed ∈ othersOf members node, listed.node ≠ [] :=
    fun listed hlisted => hnames listed (List.mem_of_mem_filter hlisted)
  -- who is asked is another member
  have howners : ∀ {partition : Partition} {owner : Member},
      owner ∈ ownersOf (partitionName partition) (othersOf members node) →
        owner ∈ members ∧ owner.node ≠ node := by
    intro partition owner howner
    have hmem := List.mem_filter.mp (mem_of_mem_ownersOf hothers howner)
    exact ⟨hmem.1, of_decide_eq_true hmem.2⟩
  have hasked : ∀ partition ∈ partitions, ∀ listed ∈ members,
      partition ∈ (holdersOf partitions members node zone).getD listed.node ∅ ↔
        listed ∈ ownersOf (partitionName partition) (othersOf members node) := by
    intro partition hin listed hlisted
    rw [hanswer.iff]
    constructor
    · -- no two members have one name
      rintro ⟨-, owner, howner, hnode⟩
      rwa [← List.inj_on_of_nodup_map hnodup (howners howner).1 hlisted hnode]
    · exact fun howner => ⟨hin, listed, howner, rfl⟩
  refine ⟨fun holder hmem => ?_, fun partition hin inZone hsome => ?_, hasked⟩
  · obtain ⟨partition, hin, owner, howner, rfl⟩ := hanswer.nonempty holder hmem
    obtain ⟨hlisted, hother⟩ := howners howner
    refine ⟨hother, List.mem_map_of_mem hlisted, ⟨partition, ?_⟩, fun other hother => ?_⟩
    · exact (hanswer.iff _ _).mpr ⟨hin, owner, howner, rfl⟩
    · exact ((hanswer.iff _ _).mp hother).1
  · obtain ⟨other, hother, hzone, hne⟩ := hsome
    -- there is another node in the zone
    have hnodes : nodesOfZone (othersOf members node) inZone ≠ [] := by
      refine List.ne_nil_of_mem
        (mem_nodesOfZone.mpr (List.mem_filter.mpr ⟨?_, ?_⟩) : other.node ∈ _)
      · rw [← hzone]
        exact hother
      · exact decide_eq_true hne
    have howner :
      (⟨ownerOf (partitionName partition) (nodesOfZone (othersOf members node) inZone), inZone⟩ :
        Member) ∈ ownersOf (partitionName partition) (othersOf members node) :=
      mem_ownersOf.mpr ⟨hnodes, rfl⟩
    refine ⟨_, (howners howner).1, rfl, ?_, fun listed hlisted hinZone => ?_⟩
    · rw [nodesOfZone_othersOf]
    · rw [hasked partition hin listed hlisted]
      constructor
      · intro hown
        have hnode := (mem_ownersOf.mp hown).2
        obtain ⟨listedNode, listedZone⟩ := listed
        subst hinZone
        rw [← hnode]
      · rintro rfl
        exact howner

/-- Two nodes of one zone and one of another. -/
def ofTwoZones : List Member :=
  [⟨ascii "a", ascii "z"⟩, ⟨ascii "b", ascii "y"⟩, ⟨ascii "c", ascii "z"⟩]

/-- The first of them asks the other of its own zone for what it would own, and the other zone. -/
theorem holdersOf_each_zone_pair :
    (∃ owner : Member, owner ∈ ofTwoZones ∧ owner.zone = ascii "z" ∧
      owner.node = ownerOf (partitionName ⟨7, by decide⟩)
        ((nodesOfZone ofTwoZones (ascii "z")).filter (· ≠ ascii "a")) ∧
      ∀ listed ∈ ofTwoZones, listed.zone = ascii "z" →
        ((⟨7, by decide⟩ : Partition) ∈ (holdersOf {⟨7, by decide⟩} ofTwoZones (ascii "a")
          (ascii "z")).getD listed.node ∅ ↔ listed = owner)) ∧
    ∀ listed ∈ ofTwoZones, (⟨7, by decide⟩ : Partition) ∈ (holdersOf {⟨7, by decide⟩} ofTwoZones
        (ascii "a") (ascii "z")).getD listed.node ∅ ↔
      listed ∈ ownersOf (partitionName ⟨7, by decide⟩)
        (ofTwoZones.filter (·.node ≠ ascii "a")) := by
  have hnames : ∀ listed ∈ ofTwoZones, listed.node ≠ [] := by decide +kernel
  have hnodup : (ofTwoZones.map Member.node).Nodup := by decide +kernel
  obtain ⟨-, hzone, hasked⟩ :=
    holdersOf_each_zone hnames hnodup {⟨7, by decide⟩} (ascii "a") (ascii "z")
  exact ⟨hzone _ (Finset.mem_singleton_self _) (ascii "z") (by decide +kernel),
    hasked _ (Finset.mem_singleton_self _)⟩

end AsyncDatabase
