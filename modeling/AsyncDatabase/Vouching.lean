import AsyncDatabase.Library.Run
import AsyncDatabase.Membership

/-!
# What a node vouches for

The membership a node routes by as it is replaced, with the generations that were asked for and the
calls of `vouch` that came in, however late. One number a partition, the generation it was last
gained in, stands for the whole history of what was held: `Held.since_iff` says that it is no later
than a generation exactly where the partition has been held in every one from there on, and
`unbroken` that nothing is vouched for across a break.
-/

namespace AsyncDatabase

open Machine

/-- The membership of a node, with every list of members it has routed by, the generations that
`generation` answered and the calls of `vouch`. -/
structure Vouching where
  membership : Membership := {}
  /-- The members of each generation, the first of which is no membership. -/
  lists : List (List Member) := [[]]
  answered : List ℕ := []
  calls : List (PartitionSet × ℕ) := []

inductive VouchEvent where
  | replace (members : List Member)
  | generation
  /-- A call of `vouch`, for the generation that was answered at one time or another. -/
  | vouch (partitions : PartitionSet) (number : ℕ)

namespace Vouching

variable (node : Bytes)

def step (v : Vouching) : VouchEvent → Vouching
  | .replace members =>
    { v with
      membership := v.membership.replaceMembers node members
      lists := v.lists ++ [members] }
  | .generation => { v with answered := v.answered ++ [v.membership.generation] }
  | .vouch partitions number =>
    match v.answered[number]? with
    | none => v
    | some since =>
      { v with
        membership := v.membership.vouch partitions since
        calls := v.calls ++ [(partitions, since)] }

/-- What the node held in a generation. -/
def heldAt (v : Vouching) (generation : ℕ) : PartitionSet :=
  (v.lists[generation]?).elim ∅ (holdingsOf node)

/-- The partition has been held in every generation from this one up to now. -/
def HeldFrom (v : Vouching) (partition : Partition) (since : ℕ) : Prop :=
  ∀ generation, since ≤ generation → generation ≤ v.membership.generation →
    partition ∈ v.heldAt node generation

/-- What a node vouches for it holds, and has held since a generation that a call vouched for it
from; and a call adds what has been held all the while. -/
structure Unbroken (v : Vouching) : Prop where
  /-- The generation counts the replacements, and what is held is what the last of them assigned. -/
  generation : v.lists.length = v.membership.generation + 1
  holding : v.membership.holding = v.heldAt node v.membership.generation
  held : ∀ partition ∈ v.membership.filled, partition ∈ v.membership.holding ∧
    ∃ call ∈ v.calls, partition ∈ call.1 ∧ v.HeldFrom node partition call.2
  added : ∀ since ∈ v.answered, ∀ partitions : PartitionSet, ∀ partition ∈ partitions,
    v.HeldFrom node partition since → partition ∈ (v.membership.vouch partitions since).filled

/-! ### The history behind the generations -/

/-- What is known of the membership between two calls. -/
structure Held (v : Vouching) : Prop where
  length : v.lists.length = v.membership.generation + 1
  holding : v.heldAt node v.membership.generation = v.membership.holding
  /-- The generation a partition was last gained in is where the time it has been held begins. -/
  since_iff : ∀ partition ∈ v.membership.holding, ∀ since ≤ v.membership.generation,
    v.membership.heldSince partition ≤ since ↔ v.HeldFrom node partition since
  answered : ∀ since ∈ v.answered, since ≤ v.membership.generation
  filled : ∀ partition ∈ v.membership.filled, partition ∈ v.membership.holding ∧
    ∃ call ∈ v.calls, partition ∈ call.1 ∧ call.2 ≤ v.membership.generation ∧
      v.HeldFrom node partition call.2

variable {node}

theorem mem_vouch {m : Membership} {partitions : PartitionSet} {since : ℕ} {partition : Partition} :
    partition ∈ (m.vouch partitions since).filled ↔ partition ∈ m.filled ∨
      partition ∈ partitions ∧ partition ∈ m.holding ∧ m.heldSince partition ≤ since := by
  simp [Membership.vouch]

/-- A partition that has been held up to now is held now. -/
theorem HeldFrom.holds {v : Vouching} (hv : v.Held node) {partition : Partition} {since : ℕ}
    (h : v.HeldFrom node partition since) (hsince : since ≤ v.membership.generation) :
    partition ∈ v.membership.holding := by
  rw [← hv.holding]
  exact h _ hsince (le_refl _)

/-- A call of `vouch` adds exactly what has been held since the generation it was filled from. -/
theorem Held.mem_vouch_iff {v : Vouching} (h : v.Held node) {partitions : PartitionSet} {since : ℕ}
    (hsince : since ≤ v.membership.generation) {partition : Partition} :
    partition ∈ (v.membership.vouch partitions since).filled ↔
      partition ∈ v.membership.filled ∨
        partition ∈ partitions ∧ v.HeldFrom node partition since := by
  rw [mem_vouch]
  refine or_congr_right (and_congr_right fun _ => ?_)
  constructor
  · rintro ⟨hholding, hheld⟩
    exact (h.since_iff partition hholding since hsince).mp hheld
  · intro hfrom
    have hholding := hfrom.holds h hsince
    exact ⟨hholding, (h.since_iff partition hholding since hsince).mpr hfrom⟩

theorem Held.vouches {v : Vouching} (h : v.Held node) : v.Unbroken node where
  generation := h.length
  holding := h.holding.symm
  held partition hmem := by
    obtain ⟨hholding, call, hcall, hpartition, -, hfrom⟩ := h.filled partition hmem
    exact ⟨hholding, call, hcall, hpartition, hfrom⟩
  added since hsince partitions partition hpartition hfrom :=
    (h.mem_vouch_iff (h.answered since hsince)).mpr (Or.inr ⟨hpartition, hfrom⟩)

theorem held_start : ({} : Vouching).Held node where
  length := rfl
  holding := rfl
  since_iff partition _ since hsince := by
    refine iff_of_true (Nat.zero_le _) fun generation _ hle => ?_
    obtain rfl : generation = 0 := Nat.le_zero.mp hle
    exact Finset.mem_univ _
  answered since h := by cases h
  filled partition h := by cases h

/-! ### What a replacement does -/

section Replace

variable {v : Vouching} (h : v.Held node) (members : List Member)
include h

theorem heldAt_replace_of_le {generation : ℕ} (hle : generation ≤ v.membership.generation) :
    (v.step node (.replace members)).heldAt node generation = v.heldAt node generation := by
  have hlt : generation < v.lists.length := by
    rw [h.length]
    omega
  unfold heldAt
  change ((v.lists ++ [members])[generation]?).elim ∅ (holdingsOf node) = _
  rw [List.getElem?_append_left hlt]

theorem heldAt_replace_last : (v.step node (.replace members)).heldAt node
    (v.membership.generation + 1) = holdingsOf node members := by
  unfold heldAt
  change ((v.lists ++ [members])[v.membership.generation + 1]?).elim ∅ (holdingsOf node) = _
  rw [← h.length, List.getElem?_concat_length]
  rfl

/-- What has been held up to a replacement and is held after it has been held all along. -/
theorem heldFrom_replace {partition : Partition} {since : ℕ} :
    (v.step node (.replace members)).HeldFrom node partition since ↔
      v.HeldFrom node partition since ∧
        (since ≤ v.membership.generation + 1 → partition ∈ holdingsOf node members) := by
  constructor
  · intro hfrom
    refine ⟨fun generation hge hle => ?_, fun hsince => ?_⟩
    · have hnow := hfrom generation hge (hle.trans (Nat.le_succ _))
      rwa [heldAt_replace_of_le h members hle] at hnow
    · have hnow := hfrom _ hsince (le_refl _)
      rwa [heldAt_replace_last h members] at hnow
  · rintro ⟨hfrom, hlast⟩ generation hge hle
    rcases Nat.le_succ_iff.mp hle with hbefore | rfl
    · rw [heldAt_replace_of_le h members hbefore]
      exact hfrom generation hge hbefore
    · rw [heldAt_replace_last h members]
      exact hlast hge

/-- **A replacement keeps the stamps in step with the history.** -/
theorem held_replace : (v.step node (.replace members)).Held node := by
  have howned : ∀ partition, partition ∈ (v.step node (.replace members)).membership.holding ↔
      partition ∈ holdingsOf node members := fun _ => Iff.rfl
  refine ⟨?_, heldAt_replace_last h members, fun partition hpartition since hsince => ?_,
    fun since hmem => ?_, fun partition hmem => ?_⟩
  · change (v.lists ++ [members]).length = v.membership.generation + 1 + 1
    rw [List.length_append, h.length]
    rfl
  · have hmember := (howned partition).mp hpartition
    have hnow : since ≤ v.membership.generation + 1 := hsince
    rw [heldFrom_replace h members]
    change (if partition ∈ holdingsOf node members ∧ partition ∉ v.membership.holding then
      v.membership.generation + 1 else v.membership.heldSince partition) ≤ since ↔ _
    by_cases hheld : partition ∈ v.membership.holding
    · rw [if_neg fun hno => hno.2 hheld]
      rcases Nat.le_succ_iff.mp hnow with hbefore | rfl
      · rw [h.since_iff partition hheld since hbefore]
        exact ⟨fun hfrom => ⟨hfrom, fun _ => hmember⟩, fun hfrom => hfrom.1⟩
      · -- it has been held in the generation before, so its stamp is no later than that one
        have hlast : v.membership.heldSince partition ≤ v.membership.generation := by
          rw [h.since_iff partition hheld _ (le_refl _)]
          intro generation hge hle
          rwa [le_antisymm hle hge, h.holding]
        refine iff_of_true (hlast.trans (Nat.le_succ _))
          ⟨fun generation hge hle => ?_, fun _ => hmember⟩
        omega
    · rw [if_pos ⟨hmember, hheld⟩]
      constructor
      · intro hlast
        exact ⟨fun generation hge hle => by omega, fun _ => hmember⟩
      · rintro ⟨hfrom, -⟩
        by_contra hno
        have hbefore : since ≤ v.membership.generation := by omega
        exact hheld (hfrom.holds h hbefore)
  · exact (h.answered since hmem).trans (Nat.le_succ _)
  · obtain ⟨hfilled, hmember⟩ := Finset.mem_inter.mp hmem
    obtain ⟨-, call, hcall, hpartition, hsince, hfrom⟩ := h.filled partition hfilled
    refine ⟨hmember, call, hcall, hpartition, hsince.trans (Nat.le_succ _), ?_⟩
    rw [heldFrom_replace h members]
    exact ⟨hfrom, fun _ => hmember⟩

end Replace

/-- **What every call keeps.** -/
theorem Held.step {v : Vouching} (h : v.Held node) (e : VouchEvent) :
    (v.step node e).Held node := by
  cases e with
  | replace members => exact held_replace h members
  | generation =>
    refine ⟨h.length, h.holding, h.since_iff, fun since hmem => ?_, h.filled⟩
    rcases List.mem_append.mp hmem with hold | hnew
    · exact h.answered since hold
    · rw [List.mem_singleton.mp hnew]
      exact le_refl _
  | vouch partitions number =>
    unfold Vouching.step
    cases hanswer : v.answered[number]? with
    | none =>
      dsimp only
      rw [hanswer]
      exact h
    | some since =>
      have hsince := h.answered since (List.mem_of_getElem? hanswer)
      dsimp only
      rw [hanswer]
      refine ⟨h.length, h.holding, h.since_iff, h.answered, fun partition hmem => ?_⟩
      rcases (h.mem_vouch_iff hsince).mp hmem with hold | ⟨hpartition, hfrom⟩
      · obtain ⟨hholding, call, hcall, hrest⟩ := h.filled partition hold
        exact ⟨hholding, call, List.mem_append_left _ hcall, hrest⟩
      · exact ⟨hfrom.holds h hsince, (partitions, since), List.mem_append_right _ (by simp),
          hpartition, hsince, hfrom⟩

end Vouching

/-- **Vouching survives no break in holding**, whatever memberships come and however late a call of
`vouch` does. -/
theorem unbroken (node : Bytes) (es : List VouchEvent) :
    (run (Vouching.step node) {} es).Unbroken node := by
  have hheld : (run (Vouching.step node) {} es).Held node :=
    Throughout.invariant (C := fun _ _ => True) (fun v e h _ => h.step e) Vouching.held_start
      (throughout_true _ es)
  exact hheld.vouches

end AsyncDatabase
