import AsyncDatabase.Partition
import AsyncDatabase.Library.Newest
import Mathlib.Data.List.Lex
import Mathlib.Data.Prod.Lex
import Mathlib.Order.Lex

/-!
# What decides who owns a key

The loop of `owner_of` keeps a winner as it goes, with an empty name for nobody yet. What it ends
with is the node that ranks highest, by its score and by its name where two score alike, so it is
decided by the set of the nodes (`owner_of_set`). Zone by zone this gives one copy each, and the
leader, who ranks highest of all, is one of them (`leader_holds_copy`).
-/

namespace AsyncDatabase

open Newest
open Bytes (ascii)

variable {key : Bytes}

/-- What a node counts for with a key: its score, and of two names the lesser. -/
def rank (key node : Bytes) : ℕ ×ₗ (List ℕ)ᵒᵈ :=
  toLex ((score node key).toNat, OrderDual.toDual (node.map UInt8.toNat))

theorem map_toNat_lt_iff (a b : Bytes) : a.map UInt8.toNat < b.map UInt8.toNat ↔ a < b := by
  induction a generalizing b with
  | nil => cases b <;> simp
  | cons x a ih =>
    cases b with
    | nil => simp
    | cons y b =>
      rw [List.map_cons, List.map_cons, List.cons_lt_cons_iff, List.cons_lt_cons_iff, ih,
        UInt8.toNat_inj, UInt8.lt_iff_toNat_lt]

theorem rank_injective (key : Bytes) : Function.Injective (rank key) := by
  intro a b h
  have hnames := congrArg (fun r => OrderDual.ofDual (ofLex r).2) h
  exact List.map_injective_iff.mpr (fun _ _ => UInt8.toNat_inj.mp) hnames

theorem coherent_rank (key : Bytes) (S : Set Bytes) : Coherent (rank key) S :=
  fun _ _ _ _ h => rank_injective key h

/-- The comparison of the loop. -/
theorem rank_lt_rank_iff {a b : Bytes} :
    rank key a < rank key b ↔
      score a key < score b key ∨ score a key = score b key ∧ b < a := by
  unfold rank
  rw [Prod.Lex.toLex_lt_toLex, OrderDual.toDual_lt_toDual, map_toNat_lt_iff, UInt64.toNat_inj,
    UInt64.lt_iff_toNat_lt]

/-- A turn of the loop once there is a winner. -/
theorem ownerStep_eq (key : Bytes) {owner : Bytes} (hname : owner ≠ []) (node : Bytes) :
    ∃ winner, ownerStep key (owner, score owner key) node = (winner, score winner key) ∧
      join (rank key) (some node) (some owner) = some winner := by
  have hcond : ((owner, score owner key).1 = [] ∨ (owner, score owner key).2 < score node key ∨
      (score node key = (owner, score owner key).2 ∧ node < (owner, score owner key).1)) ↔
      rank key owner < rank key node := by
    rw [rank_lt_rank_iff, or_iff_right hname, eq_comm]
  unfold ownerStep Newest.join
  dsimp only at hcond ⊢
  by_cases hlt : rank key owner < rank key node
  · exact ⟨node, if_pos (hcond.mpr hlt), if_pos hlt⟩
  · exact ⟨owner, if_neg (mt hcond.mp hlt), if_neg hlt⟩

/-- What the loop ends with outranks the winner it began with and the nodes it went through. -/
theorem newest_foldl_ownerStep {nodes : List Bytes}
    (hnames : ∀ node ∈ nodes, node ≠ []) {owner : Bytes} (hname : owner ≠ []) :
    IsNewest (rank key) ({owner} ∪ {node | node ∈ nodes})
      (some (nodes.foldl (ownerStep key) (owner, score owner key)).1) := by
  induction nodes generalizing owner with
  | nil =>
    have hnone : {node : Bytes | node ∈ []} = ∅ :=
      Set.eq_empty_of_forall_notMem fun _ => List.not_mem_nil
    rw [hnone, Set.union_empty]
    exact newest_singleton owner
  | cons node nodes ih =>
    have hsplit : {owner} ∪ {next | next ∈ node :: nodes} =
      ({node} ∪ {owner}) ∪ {next | next ∈ nodes} := by
      ext next
      simp only [Set.mem_union, Set.mem_singleton_iff, Set.mem_ofPred_eq, List.mem_cons]
      tauto
    obtain ⟨winner, hstep, hjoin⟩ := ownerStep_eq key hname node
    have hone : IsNewest (rank key) {node} (some node) := newest_singleton node
    have hwinner := hone.join (newest_singleton owner)
    rw [hjoin] at hwinner
    have hnamed : winner ≠ [] := by
      rcases hwinner.1 with hmem | hmem
      · rw [Set.mem_singleton_iff.mp hmem]
        exact hnames node List.mem_cons_self
      · rw [Set.mem_singleton_iff.mp hmem]
        exact hname
    rw [hsplit, List.foldl_cons, hstep]
    exact hwinner.of_insert
      (ih (fun next hnext => hnames next (List.mem_cons_of_mem _ hnext)) hnamed)

/-- **The owner outranks every node of the list.** -/
theorem newest_ownerOf (key : Bytes) {nodes : List Bytes} (hne : nodes ≠ [])
    (hnames : ∀ node ∈ nodes, node ≠ []) :
    IsNewest (rank key) {node | node ∈ nodes} (some (ownerOf key nodes)) := by
  obtain ⟨first, rest, rfl⟩ := List.exists_cons_of_ne_nil hne
  have hstep : ownerStep key ([], 0) first = (first, score first key) := by
    unfold ownerStep
    rw [if_pos (Or.inl rfl)]
  rw [ownerOf, List.foldl_cons, hstep]
  have hset : {node | node ∈ first :: rest} = {first} ∪ {node | node ∈ rest} := by
    ext node
    simp
  rw [hset]
  exact newest_foldl_ownerStep (fun node hnode => hnames node (List.mem_cons_of_mem _ hnode))
    (hnames first List.mem_cons_self)

/-- The owner among some of the nodes, where the owner among all is one of them. -/
theorem ownerOf_of_subset {part all : List Bytes} (hnames : ∀ node ∈ all, node ≠ [])
    (hsub : ∀ node ∈ part, node ∈ all) (hmem : ownerOf key all ∈ part) :
    ownerOf key part = ownerOf key all := by
  have hall : all ≠ [] := List.ne_nil_of_mem (hsub _ hmem)
  have hhere := newest_ownerOf key (List.ne_nil_of_mem hmem)
    (fun node hnode => hnames node (hsub node hnode))
  have hthere := (newest_ownerOf key hall hnames).of_subset
    (T := {node | node ∈ part}) hsub hmem
  exact Option.some.inj (hhere.unique (coherent_rank key _) hthere)

/-- The owner is the same for two lists of the same nodes. -/
theorem ownerOf_congr {nodes other : List Bytes} (hnames : ∀ node ∈ nodes, node ≠ [])
    (hsame : ∀ node, node ∈ other ↔ node ∈ nodes) : ownerOf key other = ownerOf key nodes := by
  by_cases hne : nodes = []
  · have hother : other = [] := by
      refine List.eq_nil_iff_forall_not_mem.mpr fun node hnode => ?_
      rw [hsame, hne] at hnode
      exact List.not_mem_nil hnode
    rw [hne, hother]
  · refine ownerOf_of_subset hnames (fun node => (hsame node).mp) ((hsame _).mpr ?_)
    exact (newest_ownerOf _ hne hnames).1

/-- A key changes hands to a node that came or away from one that went. -/
theorem ownerOf_change {nodes other : List Bytes} (hnames : ∀ node ∈ nodes, node ≠ [])
    (hothers : ∀ node ∈ other, node ≠ []) :
    ownerOf key other = ownerOf key nodes ∨
      (ownerOf key other ∈ other ∧ ownerOf key other ∉ nodes) ∨
      (ownerOf key nodes ∈ nodes ∧ ownerOf key nodes ∉ other) := by
  by_cases hnone : nodes = []
  · by_cases hother : other = []
    · exact .inl (by rw [hnone, hother])
    · refine .inr (.inl ⟨(newest_ownerOf _ hother hothers).1, ?_⟩)
      rw [hnone]
      exact List.not_mem_nil
  · have hmem := (newest_ownerOf key hnone hnames).1
    by_cases hin : ownerOf key nodes ∈ other
    · have hother : other ≠ [] := List.ne_nil_of_mem hin
      obtain ⟨hown, hle⟩ := newest_ownerOf key hother hothers
      by_cases hback : ownerOf key other ∈ nodes
      · have hge := (newest_ownerOf key hnone hnames).2 _ hback
        exact .inl (rank_injective key (le_antisymm hge (hle _ hin)))
      · exact .inr (.inl ⟨hown, hback⟩)
    · exact .inr (.inr ⟨hmem, hin⟩)

/-- **Who owns a key is decided by the set of the nodes**, and as little as can be changes hands. -/
theorem owner_of_set {key : Bytes} {nodes : List Bytes} (hnames : ∀ node ∈ nodes, node ≠ []) :
    (nodes ≠ [] → ownerOf key nodes ∈ nodes ∧ ∀ node ∈ nodes,
      score node key < score (ownerOf key nodes) key ∨
        score node key = score (ownerOf key nodes) key ∧ ownerOf key nodes ≤ node) ∧
    (∀ other, (∀ node, node ∈ other ↔ node ∈ nodes) → ownerOf key other = ownerOf key nodes) ∧
    (∀ gone other, (∀ node, node ∈ other ↔ node ∈ nodes ∧ node ≠ gone) →
      ownerOf key nodes ≠ gone → ownerOf key other = ownerOf key nodes) ∧
    (∀ added other, added ≠ [] → (∀ node, node ∈ other ↔ node ∈ nodes ∨ node = added) →
      ownerOf key other = ownerOf key nodes ∨ ownerOf key other = added) := by
  refine ⟨fun hne => ?_, fun other => ownerOf_congr hnames, fun gone other hother hstays => ?_,
    fun added other hadded hother => ?_⟩
  · obtain ⟨hmem, hle⟩ := newest_ownerOf key hne hnames
    refine ⟨hmem, fun node hnode => ?_⟩
    by_cases hsame : node = ownerOf key nodes
    · rw [hsame]
      exact .inr ⟨rfl, List.le_refl _⟩
    · have hlt := lt_of_le_of_ne (hle node hnode) ((rank_injective key).ne hsame)
      rcases rank_lt_rank_iff.mp hlt with hscore | ⟨hscore, hname⟩
      · exact .inl hscore
      · exact .inr ⟨hscore, List.le_of_lt hname⟩
  · by_cases hne : nodes = []
    · refine ownerOf_congr hnames fun node => ?_
      rw [hother, hne]
      simp
    · refine ownerOf_of_subset hnames (fun node hnode => ((hother node).mp hnode).1) ?_
      exact (hother _).mpr ⟨(newest_ownerOf _ hne hnames).1, hstays⟩
  · have hnamed : ∀ node ∈ other, node ≠ [] := by
      intro node hnode
      rcases (hother node).mp hnode with hnode | rfl
      · exact hnames node hnode
      · exact hadded
    by_cases hnew : ownerOf key other = added
    · exact .inr hnew
    · have hne : other ≠ [] := List.ne_nil_of_mem ((hother added).mpr (.inr rfl))
      have hmem := ((hother _).mp (newest_ownerOf _ hne hnamed).1).resolve_right hnew
      exact .inl (ownerOf_of_subset hnamed (fun node hnode =>
        (hother node).mpr (.inl hnode)) hmem).symm

theorem owner_of_set_pair : ownerOf (ascii "k") [ascii "b", ascii "a", ascii "b"] =
    ownerOf (ascii "k") [ascii "a", ascii "b"] := by
  have hnames : ∀ node ∈ [ascii "a", ascii "b"], node ≠ [] := by decide +kernel
  refine (owner_of_set hnames).2.1 _ fun node => ?_
  simp only [List.mem_cons, List.not_mem_nil, or_false]
  tauto

/-! ### Zone by zone -/

theorem names_nodesOfZone {members : List Member} (hnames : ∀ listed ∈ members, listed.node ≠ [])
    {zone : Bytes} : ∀ node ∈ nodesOfZone members zone, node ≠ [] :=
  fun _ hnode => hnames _ (mem_nodesOfZone.mp hnode)

/-- An owner is of the membership. -/
theorem mem_of_mem_ownersOf {members : List Member} (hnames : ∀ listed ∈ members, listed.node ≠ [])
    {owner : Member} (howner : owner ∈ ownersOf key members) : owner ∈ members := by
  obtain ⟨hne, hnode⟩ := mem_ownersOf.mp howner
  refine mem_nodesOfZone.mp ?_
  rw [hnode]
  exact (newest_ownerOf _ hne (names_nodesOfZone hnames)).1

/-- A zone's owner depends on the zone. -/
theorem mem_ownersOf_congr {members other : List Member}
    (hnames : ∀ listed ∈ members, listed.node ≠ []) {owner : Member}
    (hsame : ∀ node, ⟨node, owner.zone⟩ ∈ other ↔ (⟨node, owner.zone⟩ : Member) ∈ members) :
    owner ∈ ownersOf key other ↔ owner ∈ ownersOf key members := by
  have hnodes : ∀ node, node ∈ nodesOfZone other owner.zone ↔
    node ∈ nodesOfZone members owner.zone := by
    intro node
    rw [mem_nodesOfZone, mem_nodesOfZone, hsame]
  have hempty : nodesOfZone other owner.zone = [] ↔ nodesOfZone members owner.zone = [] := by
    simp only [List.eq_nil_iff_forall_not_mem, hnodes]
  rw [mem_ownersOf, mem_ownersOf, ownerOf_congr (names_nodesOfZone hnames) hnodes]
  exact and_congr_left fun _ => not_congr hempty

/-- The leader owns the key in its zone. -/
theorem leader_mem_ownersOf {members : List Member} (hnames : ∀ listed ∈ members, listed.node ≠ [])
    (hne : members ≠ []) : ∃ owner ∈ ownersOf key members, owner.node = leaderOf key members := by
  have hnamed : ∀ node ∈ members.map Member.node, node ≠ [] := List.forall_mem_map.mpr hnames
  have hmap : members.map Member.node ≠ [] := mt List.map_eq_nil_iff.mp hne
  obtain ⟨leader, hleader, hnode⟩ := List.mem_map.mp (newest_ownerOf key hmap hnamed).1
  have hzone : leader.node ∈ nodesOfZone members leader.zone := mem_nodesOfZone.mpr hleader
  refine ⟨leader, mem_ownersOf.mpr ⟨List.ne_nil_of_mem hzone, ?_⟩, hnode⟩
  -- who outranks everybody outranks its zone
  rw [hnode] at hzone ⊢
  refine (ownerOf_of_subset hnamed (fun node hin => ?_) hzone).symm
  exact List.mem_map.mpr ⟨_, mem_nodesOfZone.mp hin, rfl⟩

/-- **Every zone holds one copy, and the leader is one of them.** What changes in one zone moves no
copy of another, and moves the leader to a node that came or away from one that went. -/
theorem leader_holds_copy {key : Bytes} {members : List Member}
    (hnames : ∀ listed ∈ members, listed.node ≠ []) :
    ((ownersOf key members).map Member.zone).Nodup ∧
    (∀ zone, (∃ owner ∈ ownersOf key members, owner.zone = zone) ↔
      ∃ listed ∈ members, listed.zone = zone) ∧
    (∀ owner ∈ ownersOf key members, owner ∈ members) ∧
    (members = [] ∧ leaderOf key members = [] ∨
      ∃ owner ∈ ownersOf key members, owner.node = leaderOf key members) ∧
    ∀ (other : List Member) (zone : Bytes), (∀ listed ∈ other, listed.node ≠ []) →
      (∀ listed : Member, listed.zone ≠ zone → (listed ∈ other ↔ listed ∈ members)) →
      (∀ owner : Member, owner.zone ≠ zone →
        (owner ∈ ownersOf key other ↔ owner ∈ ownersOf key members)) ∧
      (leaderOf key other = leaderOf key members ∨
        (leaderOf key other ∈ other.map Member.node ∧
          leaderOf key other ∉ members.map Member.node) ∨
        (leaderOf key members ∈ members.map Member.node ∧
          leaderOf key members ∉ other.map Member.node)) := by
  refine ⟨nodup_zones_ownersOf key members, fun zone => ⟨?_, ?_⟩, fun _ =>
    mem_of_mem_ownersOf hnames, ?_, fun other zone hothers hsame => ⟨fun owner hzone => ?_, ?_⟩⟩
  · rintro ⟨owner, howner, rfl⟩
    exact ⟨owner, mem_of_mem_ownersOf hnames howner, rfl⟩
  · rintro ⟨listed, hlisted, rfl⟩
    have hne : nodesOfZone members listed.zone ≠ [] :=
      List.ne_nil_of_mem (mem_nodesOfZone.mpr hlisted)
    exact ⟨⟨ownerOf key (nodesOfZone members listed.zone), listed.zone⟩,
      mem_ownersOf.mpr ⟨hne, rfl⟩, rfl⟩
  · by_cases hne : members = []
    · rw [hne]
      exact .inl ⟨rfl, rfl⟩
    · exact .inr (leader_mem_ownersOf hnames hne)
  · exact mem_ownersOf_congr hnames fun node => hsame ⟨node, owner.zone⟩ hzone
  · exact ownerOf_change (List.forall_mem_map.mpr hnames) (List.forall_mem_map.mpr hothers)

theorem leader_holds_copy_pair : ∃ owner ∈ ownersOf (ascii "k")
      [⟨ascii "a", ascii "z"⟩, ⟨ascii "b", ascii "y"⟩],
    owner.node = leaderOf (ascii "k") [⟨ascii "a", ascii "z"⟩, ⟨ascii "b", ascii "y"⟩] := by
  have hnames : ∀ listed ∈ [Member.mk (ascii "a") (ascii "z"), ⟨ascii "b", ascii "y"⟩],
      listed.node ≠ [] := by decide +kernel
  exact (leader_holds_copy hnames).2.2.2.1.resolve_left fun h => List.cons_ne_nil _ _ h.1

end AsyncDatabase
