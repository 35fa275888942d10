import AsyncDatabase.Library.Run
import AsyncDatabase.Reconcile

/-!
# Whom a walk says to ask

The walk of a clear down (`walk_table`) while the membership is replaced under it: what the node
holds is read once, where each partition's copies are as the walk comes to it. `asks_owners_iff`
says when every node that the walk says to ask is the one that owns the partition in this node's own
zone: where, as the copies of a partition that has something to give up are read, this node does not
hold it and is not alone in missing from its zone.
-/

namespace AsyncDatabase

open Bytes (ascii)
open Machine

/-! ### The copy in this node's own zone -/

/-- A node of a list that is not empty owns the key, whatever the nodes are called. -/
theorem ownerOf_mem_of_ne_nil (key : Bytes) {nodes : List Bytes} (hne : nodes ≠ []) :
    ownerOf key nodes ∈ nodes := by
  obtain ⟨node, rest, rfl⟩ := List.exists_cons_of_ne_nil hne
  have hstep : ownerStep key ([], 0) node = (node, score node key) := by
    unfold ownerStep
    rw [if_pos (Or.inl rfl)]
  rw [ownerOf, List.foldl_cons, hstep]
  rcases foldl_ownerStep_mem key rest (node, score node key) with h | h
  · rw [h]
    exact List.mem_cons_self
  · exact List.mem_cons_of_mem _ h

/-- Of the owners that are not this node itself, those of its own zone come first. -/
theorem nodes_foldl_placeOwner (here zone : Bytes) (owners : List Member) (place : Placement) :
    (owners.foldl (placeOwner here zone) place).nodes =
      ((owners.filter fun owner => owner.node ≠ here ∧ owner.zone = zone).map
        Member.node).reverse ++ place.nodes ++
        (owners.filter fun owner => owner.node ≠ here ∧ owner.zone ≠ zone).map Member.node := by
  induction owners generalizing place with
  | nil => simp
  | cons owner owners ih =>
    rw [List.foldl_cons, ih]
    unfold placeOwner
    by_cases hself : owner.node = here
    · simp [hself]
    · by_cases hzone : owner.zone = zone
      · simp [hself, hzone]
      · simp [hself, hzone]

/-- What a node should be that is asked about a partition. -/
structure AsksOwner (here zone : Bytes) (members : List Member) (node : Bytes)
    (partition : Partition) : Prop where
  other : node ≠ here
  inZone : ⟨node, zone⟩ ∈ members
  owns : ownerOf (partitionName partition) (nodesOfZone members zone) = node
  notHeld : partition ∉ holdingsOf here members

/-- This node does not hold the partition, and its zone has a node. -/
def GivesUp (here zone : Bytes) (members : List Member) (partition : Partition) : Prop :=
  partition ∉ holdingsOf here members ∧ ∃ listed ∈ members, listed.zone = zone

instance (here zone : Bytes) (members : List Member) (partition : Partition) :
    Decidable (GivesUp here zone members partition) :=
  inferInstanceAs
    (Decidable (partition ∉ holdingsOf here members ∧ ∃ listed ∈ members, listed.zone = zone))

/-- **The first copy a placement names is the owner in the zone** of the node that asks, exactly
where that node does not hold the partition and its zone has a node. -/
theorem asksOwner_iff {here zone : Bytes} {members : List Member} {node : Bytes}
    {partition : Partition}
    (hfront : (copiesOf here zone members partition).nodes.head? = some node) :
    AsksOwner here zone members node partition ↔ GivesUp here zone members partition := by
  constructor
  · exact fun h => ⟨h.notHeld, ⟨node, zone⟩, h.inZone, rfl⟩
  · rintro ⟨hheld, listed, hlisted, hzone⟩
    have hmany : ¬members.length < 2 := by
      intro hfew
      rw [holdingsOf, if_pos hfew] at hheld
      exact hheld (Finset.mem_univ _)
    have hnodes : nodesOfZone members zone ≠ [] :=
      List.ne_nil_of_mem
        (mem_nodesOfZone.mpr (show ⟨listed.node, zone⟩ ∈ members from hzone ▸ hlisted))
    have howner : ⟨ownerOf (partitionName partition) (nodesOfZone members zone), zone⟩ ∈
        ownersOf (partitionName partition) members := mem_ownersOf.mpr ⟨hnodes, rfl⟩
    have hother : ownerOf (partitionName partition) (nodesOfZone members zone) ≠ here := by
      intro hself
      rw [holdingsOf, if_neg hmany, Finset.mem_filter, List.any_eq_true] at hheld
      exact hheld ⟨Finset.mem_univ _, _, howner, decide_eq_true hself⟩
    -- of the zone's owners there is one
    let inZone := (ownersOf (partitionName partition) members).filter fun owner =>
      owner.node ≠ here ∧ owner.zone = zone
    have hone : ∀ owner ∈ inZone,
        owner.node = ownerOf (partitionName partition) (nodesOfZone members zone) := by
      intro owner hmem
      obtain ⟨hmem, hof⟩ := List.mem_filter.mp hmem
      rw [(mem_ownersOf.mp hmem).2, (of_decide_eq_true hof).2]
    have hsome : inZone ≠ [] :=
      List.ne_nil_of_mem (List.mem_filter.mpr ⟨howner, decide_eq_true ⟨hother, rfl⟩⟩)
    have hfirst : node = ownerOf (partitionName partition) (nodesOfZone members zone) := by
      rw [copiesOf, if_neg hmany, nodes_foldl_placeOwner] at hfront
      obtain ⟨first, rest, hrev⟩ := List.exists_cons_of_ne_nil
        (fun hnil => hsome (List.map_eq_nil_iff.mp (List.reverse_eq_nil_iff.mp hnil)) :
          (inZone.map Member.node).reverse ≠ [])
      have hmem : first ∈ (inZone.map Member.node).reverse := by
        rw [hrev]
        exact List.mem_cons_self
      obtain ⟨owner, howned, rfl⟩ := List.mem_map.mp (List.mem_reverse.mp hmem)
      rw [hrev] at hfront
      exact (Option.some.inj hfront).symm.trans (hone owner howned)
    exact
      { other := hfirst ▸ hother
        inZone := hfirst ▸ mem_nodesOfZone.mp (ownerOf_mem_of_ne_nil _ hnodes)
        owns := hfirst.symm
        notHeld := hheld }

/-! ### The walk -/

/-- How far a walk of a table is. -/
inductive WalkStage where
  | idle
  | walking (found : Misplaced) (left : List Partition)
  /-- Before a page of a partition, placed as it was when the walk came to it. -/
  | paging (found : Misplaced) (left : List Partition) (place : Placement) (range : Scan.Range)
  | ended (found : Misplaced)

/-- A walk of a table, and the membership of the moment. -/
structure OwnerWalk where
  members : List Member := []
  stage : WalkStage := .idle
  /-- The membership that each partition was placed under. The walk does not keep it. -/
  placed : Partition → List Member := fun _ => []

inductive OwnerEvent where
  | replace (members : List Member)
  /-- The walk reads what the node holds. -/
  | start
  /-- The walk comes to the next partition and reads where its copies are, or is over. -/
  | next
  /-- What the store answers for a page, or the end of the walk, which was stopped or ran out of
  patience. -/
  | page (page : Scan.Page) (going : Bool)

namespace WalkStage

/-- What was found so far. -/
def found : WalkStage → Misplaced
  | .idle => {}
  | .walking found _ | .paging found _ _ _ | .ended found => found

end WalkStage

namespace OwnerWalk

variable (here zone : Bytes) (size : ℕ)

/-- What a page says is found, and where the walk is after it. -/
def paged (found : Misplaced) (left : List Partition) (place : Placement) (range : Scan.Range)
    (page : Scan.Page) : WalkStage :=
  let turn := page.records.foldl (Reconcile.walkRecord place range) { found }
  match turn.last with
  | none => .walking turn.found left
  | some last =>
    if page.hasMore = false ∨ turn.readAny = false then .walking turn.found left
    else .paging turn.found left place { range with lower := last, hasLower := true }

def step (s : OwnerWalk) (e : OwnerEvent) : OwnerWalk :=
  match e, s.stage with
  | .replace members, _ => { s with members }
  | .start, .idle =>
    let held := holdingsOf here s.members
    { s with stage := .walking {} ((List.finRange partitionCount).filter (· ∉ held)) }
  | .next, .walking found (partition :: left) =>
    { s with
      stage := .paging found left (copiesOf here zone s.members partition)
        (Reconcile.walkRange partition size)
      placed := Function.update s.placed partition s.members }
  | .next, .walking found [] => { s with stage := .ended { found with finished := true } }
  | .page page true, .paging found left place range =>
    { s with stage := paged found left place range page }
  | .page _ false, .paging found _ _ _ => { s with stage := .ended found }
  | _, _ => s

/-- Whom a walk says to ask about which partitions. -/
def Asks (found : Misplaced) (node : Bytes) (partition : Partition) : Prop :=
  partition ∈ found.elsewhere[node]?.getD ∅

/-- Each node the walk says to ask is, under the membership that named it, another node of this
node's own zone that owns the partition, which this node does not hold. -/
def AsksOwners (s : OwnerWalk) : Prop :=
  ∀ node partition, Asks s.stage.found node partition →
    AsksOwner here zone (s.placed partition) node partition

/-- The record is one the walk has not read yet. -/
def IsNew (range : Scan.Range) (record : Record) : Prop :=
  ¬(range.hasLower = true ∧ record.key = range.lower)

/-- Where a page has a record that is new to the walk and some copy is named for it, this node did
not hold the partition as its copies were read, and its zone had a node. -/
def FindsElsewhere (s : OwnerWalk) (e : OwnerEvent) : Prop :=
  match e, s.stage with
  | .page page true, .paging _ _ place range =>
    (∃ record ∈ page.records, IsNew range record) → place.nodes ≠ [] →
      GivesUp here zone (s.placed range.partition) range.partition
  | _, _ => True

/-! ### What a page adds -/

theorem asks_misplace {place : Placement} {current partition : Partition}
    {found : Misplaced} {node : Bytes} :
    Asks (Reconcile.misplace place current found) node partition ↔
      Asks found node partition ∨ place.nodes.head? = some node ∧ partition = current := by
  unfold Asks Reconcile.misplace
  cases place.nodes with
  | nil => simp
  | cons first rest =>
    dsimp only
    rw [Std.ExtTreeMap.getElem?_insert]
    by_cases hnode : first = node
    · subst hnode
      simp [or_comm]
    · simp [hnode]

theorem asks_foldl_walkRecord {place : Placement} {range : Scan.Range} {records : List Record}
    {turn : Reconcile.Turn} {node : Bytes} {partition : Partition} :
    Asks (records.foldl (Reconcile.walkRecord place range) turn).found node partition ↔
      Asks turn.found node partition ∨ (∃ record ∈ records, IsNew range record) ∧
        place.nodes.head? = some node ∧ partition = range.partition := by
  induction records generalizing turn with
  | nil => simp
  | cons record records ih =>
    rw [List.foldl_cons, ih, Reconcile.walkRecord]
    by_cases hold : range.hasLower = true ∧ record.key = range.lower
    · have hno : ¬IsNew range record := fun hnew => hnew hold
      rw [if_pos hold]
      simp only [List.mem_cons, exists_eq_or_imp, hno, false_or]
    · have hnew : IsNew range record := hold
      rw [if_neg hold]
      dsimp only
      rw [asks_misplace]
      simp only [List.mem_cons, exists_eq_or_imp, hnew, true_or, true_and]
      tauto

/-- Whom the walk says to ask after a page: the first copy of the partition too, where the page has
a record that is new. -/
theorem asks_paged {found : Misplaced} {left : List Partition}
    {place : Placement} {range : Scan.Range}
    {page : Scan.Page} {node : Bytes} {partition : Partition} :
    Asks (paged found left place range page).found node partition ↔
      Asks found node partition ∨ (∃ record ∈ page.records, IsNew range record) ∧
        place.nodes.head? = some node ∧ partition = range.partition := by
  have hfold : Asks (page.records.foldl (Reconcile.walkRecord place range) { found }).found node
      partition ↔ Asks found node partition ∨ (∃ record ∈ page.records, IsNew range record) ∧
        place.nodes.head? = some node ∧ partition = range.partition := asks_foldl_walkRecord
  unfold paged
  dsimp only
  cases (page.records.foldl (Reconcile.walkRecord place range) { found }).last with
  | none => exact hfold
  | some last =>
    dsimp only
    split_ifs
    · exact hfold
    · exact hfold

/-! ### What every step keeps -/

/-- The partitions that the walk has still to come to, and the one it is at with its placement. -/
def AtStage (s : OwnerWalk) : Prop :=
  match s.stage with
  | .idle | .ended _ => True
  | .walking found left => left.Nodup ∧ ∀ partition ∈ left, ∀ node, ¬Asks found node partition
  | .paging found left place range =>
    left.Nodup ∧ (∀ partition ∈ left, ∀ node, ¬Asks found node partition) ∧ range.partition ∉ left ∧
      place = copiesOf here zone (s.placed range.partition) range.partition

structure Kept (s : OwnerWalk) : Prop where
  asked : ∀ node partition, Asks s.stage.found node partition →
    (copiesOf here zone (s.placed partition) partition).nodes.head? = some node ∧
      GivesUp here zone (s.placed partition) partition
  stage : s.AtStage here zone

variable {here zone size}

theorem not_asks_empty (node : Bytes) (partition : Partition) : ¬Asks {} node partition := by
  intro h
  have hempty : (({} : Misplaced).elsewhere[node]?).getD ∅ = ∅ := by
    rw [show ({} : Misplaced).elsewhere = ∅ from rfl, Std.ExtTreeMap.getElem?_empty]
    rfl
  rw [Asks, hempty] at h
  exact Finset.notMem_empty _ h

theorem Kept.asksOwners {s : OwnerWalk} (h : s.Kept here zone) : s.AsksOwners here zone :=
  fun node partition hasks =>
    let ⟨hfront, hgives⟩ := h.asked node partition hasks
    (asksOwner_iff hfront).mpr hgives

/-- The walk comes to a partition that nothing has been found in. -/
theorem Kept.next {s : OwnerWalk} (h : s.Kept here zone) {found : Misplaced} {partition : Partition}
    {left : List Partition} (hstage : s.stage = .walking found (partition :: left)) :
    ({ s with
      stage := .paging found left (copiesOf here zone s.members partition)
        (Reconcile.walkRange partition size)
      placed := Function.update s.placed partition s.members } : OwnerWalk).Kept here zone := by
  have hat := h.stage
  rw [AtStage, hstage] at hat
  obtain ⟨hnodup, hnone⟩ := hat
  rw [List.nodup_cons] at hnodup
  refine ⟨fun node other hasks => ?_, hnodup.2, fun other hother =>
    hnone other (List.mem_cons_of_mem _ hother), hnodup.1, ?_⟩
  · have hne : other ≠ partition := by
      rintro rfl
      exact hnone other List.mem_cons_self node hasks
    change (copiesOf here zone
      (Function.update s.placed partition s.members other) other).nodes.head? =
        some node ∧ GivesUp here zone (Function.update s.placed partition s.members other) other
    rw [Function.update_of_ne hne]
    refine h.asked node other ?_
    rw [hstage]
    exact hasks
  · change _ = copiesOf here zone (Function.update s.placed partition s.members partition) partition
    rw [Function.update_self]

/-- A page adds the first copy of its partition, which is to be given up. -/
theorem Kept.paged {s : OwnerWalk} (h : s.Kept here zone) {found : Misplaced}
    {left : List Partition}
    {place : Placement} {range : Scan.Range} (hstage : s.stage = .paging found left place range)
    {page : Scan.Page} (hfinds : s.FindsElsewhere here zone (.page page true)) :
    ({ s with stage := OwnerWalk.paged found left place range page } :
      OwnerWalk).Kept here zone := by
  have hat := h.stage
  rw [AtStage, hstage] at hat
  obtain ⟨hnodup, hnone, hlater, hplace⟩ := hat
  unfold FindsElsewhere at hfinds
  rw [hstage] at hfinds
  dsimp only at hfinds
  refine ⟨fun node partition hasks => ?_, ?_⟩
  · -- what is asked now was asked before, or is of the page
    rcases asks_paged.mp hasks with hbefore | ⟨hnew, hfront, rfl⟩
    · refine h.asked node partition ?_
      rw [hstage]
      exact hbefore
    · refine ⟨hplace ▸ hfront, hfinds hnew fun hnil => ?_⟩
      rw [hnil] at hfront
      cases hfront
  · -- the partitions that are left are none of them the one of the page
    have hleft : ∀ partition ∈ left, ∀ node,
        ¬Asks (OwnerWalk.paged found left place range page).found node partition := by
      intro partition hmem node hasks
      rcases asks_paged.mp hasks with hbefore | ⟨-, -, rfl⟩
      · exact hnone partition hmem node hbefore
      · exact hlater hmem
    unfold OwnerWalk.paged at hleft ⊢
    dsimp only at hleft ⊢
    cases hlast : (page.records.foldl (Reconcile.walkRecord place range) { found }).last with
    | none =>
      rw [hlast] at hleft
      exact ⟨hnodup, hleft⟩
    | some last =>
      rw [hlast] at hleft
      dsimp only at hleft ⊢
      split_ifs at hleft ⊢
      · exact ⟨hnodup, hleft⟩
      · exact ⟨hnodup, hleft, hlater, hplace⟩

theorem Kept.step {s : OwnerWalk} (h : s.Kept here zone) {e : OwnerEvent}
    (hfinds : s.FindsElsewhere here zone e) : (s.step here zone size e).Kept here zone := by
  have hat := h.stage
  rw [AtStage] at hat
  unfold OwnerWalk.step
  split
  case h_1 members => exact ⟨h.asked, h.stage⟩
  case h_2 hstage =>
    refine ⟨fun node partition hasks => absurd hasks (not_asks_empty node partition), ?_, ?_⟩
    · exact (List.nodup_finRange partitionCount).filter _
    · exact fun partition _ node => not_asks_empty node partition
  case h_3 found partition left hstage => exact h.next hstage
  case h_4 found hstage =>
    refine ⟨fun node partition hasks => h.asked node partition ?_, trivial⟩
    rw [hstage]
    exact hasks
  case h_5 page found left place range hstage => exact h.paged hstage hfinds
  case h_6 page found left place range hstage =>
    refine ⟨fun node partition hasks => h.asked node partition ?_, trivial⟩
    rw [hstage]
    exact hasks
  case h_7 => exact h

/-- A page that finds something where this node holds the partition, or is missing from its zone
with nobody else in it, names a node that should not be asked. -/
theorem Kept.findsElsewhere {s : OwnerWalk} (h : s.Kept here zone) {e : OwnerEvent}
    (hasks : (s.step here zone size e).AsksOwners here zone) : s.FindsElsewhere here zone e := by
  have hat := h.stage
  rw [AtStage] at hat
  unfold FindsElsewhere
  split
  case h_1 page found left place range hstage =>
    rw [hstage] at hat
    obtain ⟨-, -, -, hplace⟩ := hat
    intro hnew hsome
    obtain ⟨node, rest, hnodes⟩ := List.exists_cons_of_ne_nil hsome
    have hfront : place.nodes.head? = some node := by
      rw [hnodes]
      rfl
    have hstep : s.step here zone size (.page page true) =
        { s with stage := OwnerWalk.paged found left place range page } := by
      unfold OwnerWalk.step
      rw [hstage]
    rw [hstep] at hasks
    have hnamed := hasks node range.partition (asks_paged.mpr (Or.inr ⟨hnew, hfront, rfl⟩))
    exact (asksOwner_iff (hplace ▸ hfront)).mp hnamed
  case h_2 => trivial

theorem kept_start (members : List Member) : ({ members } : OwnerWalk).Kept here zone :=
  ⟨fun node partition hasks => absurd hasks (not_asks_empty node partition), trivial⟩

/-- **A walk says to ask the owners in its own zone**, about partitions this node does not hold, in
exactly the runs in which every record is found of a partition that this node did not hold as its
copies were read, in a zone that had a node then. -/
theorem asks_owners_iff (here zone : Bytes) (size : ℕ) (members : List Member)
    (es : List OwnerEvent) :
    Always (OwnerWalk.step here zone size) (AsksOwners here zone) { members } es ↔
      Throughout (OwnerWalk.step here zone size) (FindsElsewhere here zone) { members } es := by
  have hknown : Always (OwnerWalk.step here zone size) (fun _ => True) { members } es :=
    (always_iff).mpr fun _ _ _ => trivial
  exact always_iff_throughout (fun _ h => h.asksOwners) (fun _ _ h _ hfinds => h.step hfinds)
    (fun _ _ h _ hasks => h.findsElsewhere hasks) (kept_start members) hknown

end OwnerWalk

/-! ### A partition that is handed back while it is walked -/

/-- Two nodes in one zone and one in another. -/
def bothThere : List Member :=
  [⟨ascii "a", ascii "x"⟩, ⟨ascii "b", ascii "x"⟩, ⟨ascii "c", ascii "y"⟩]

/-- The second node of the first zone is gone. -/
def aloneInZone : List Member := [⟨ascii "a", ascii "x"⟩, ⟨ascii "c", ascii "y"⟩]

/-- The walk reads what the node holds, the membership moves, and then the walk comes to a partition
that was the other node's and finds a record there. -/
def handedBack : List OwnerEvent :=
  [.start, .replace aloneInZone, .next, .page { records := [⟨ascii "k", [], {}⟩] } true]

/-- The first partition, which the second node owns in the first zone. -/
def firstPartition : Partition := ⟨0, by decide⟩

/-- The node holds the partition again, and is to ask the node of the other zone about it. -/
theorem not_asksOwners_handedBack :
    ¬Always (OwnerWalk.step (ascii "a") (ascii "x") 100)
      (OwnerWalk.AsksOwners (ascii "a") (ascii "x")) { members := bothThere } handedBack := by
  have hlost : (ownersOf (partitionName firstPartition) bothThere).any (·.node =
    ascii "a") = false := by
    decide +kernel
  have hheld : (ownersOf (partitionName firstPartition) aloneInZone).any (·.node = ascii "a") =
      true := by
    decide +kernel
  have hplace : copiesOf (ascii "a") (ascii "x") aloneInZone firstPartition =
    ⟨true, [ascii "c"]⟩ := by
    decide +kernel
  have hunheld : firstPartition ∉ holdingsOf (ascii "a") bothThere := by
    rw [holdingsOf, if_neg (by decide), Finset.mem_filter, hlost]
    simp
  have hholds : firstPartition ∈ holdingsOf (ascii "a") aloneInZone := by
    rw [holdingsOf, if_neg (by decide), Finset.mem_filter, hheld]
    simp
  obtain ⟨left, hleft⟩ : ∃ left, (List.finRange partitionCount).filter
      (· ∉ holdingsOf (ascii "a") bothThere) = firstPartition :: left := by
    obtain ⟨rest, hfirst⟩ : ∃ rest, List.finRange partitionCount = firstPartition :: rest :=
      ⟨_, List.finRange_succ⟩
    exact ⟨_, by rw [hfirst, List.filter_cons_of_pos (by simpa using hunheld)]⟩
  -- the walk as the page comes
  have hrun : run (OwnerWalk.step (ascii "a") (ascii "x") 100) { members := bothThere }
      (handedBack.take 3) =
      { members := aloneInZone
        stage := .paging {} left ⟨true, [ascii "c"]⟩ (Reconcile.walkRange firstPartition 100)
        placed := Function.update (fun _ => []) firstPartition aloneInZone } := by
    simp only [handedBack, List.take, run_cons, run_nil, OwnerWalk.step]
    rw [hleft, ← hplace]
  intro halways
  have hlast := halways.last
  have hsplit : run (OwnerWalk.step (ascii "a") (ascii "x") 100) { members :=
    bothThere } handedBack =
      OwnerWalk.step (ascii "a") (ascii "x") 100
        (run (OwnerWalk.step (ascii "a") (ascii "x") 100) { members := bothThere }
          (handedBack.take 3)) (.page { records := [⟨ascii "k", [], {}⟩] } true) := rfl
  have hnew : OwnerWalk.IsNew (Reconcile.walkRange firstPartition 100) ⟨ascii "k", [], {}⟩ :=
    fun hold => absurd hold.1 (by decide)
  have hasks : OwnerWalk.Asks (OwnerWalk.paged {} left ⟨true, [ascii "c"]⟩
      (Reconcile.walkRange firstPartition 100) { records := [⟨ascii "k", [], {}⟩] }).found
      (ascii "c") firstPartition :=
    OwnerWalk.asks_paged.mpr (Or.inr ⟨⟨_, List.mem_cons_self, hnew⟩, rfl, rfl⟩)
  rw [hsplit, hrun] at hlast
  refine (hlast (ascii "c") firstPartition hasks).notHeld ?_
  change firstPartition ∈ holdingsOf (ascii "a")
    (Function.update (fun _ => []) firstPartition aloneInZone firstPartition)
  rwa [Function.update_self]

end AsyncDatabase
