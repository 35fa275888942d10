import Mathlib.Data.Set.Finite.List
import Mathlib.Tactic

/-!
# Chains of what one thing causes after another

What each thing causes may depend on the whole chain that led to it, so a chain is a list with the
newest first and `next` says what the end of a chain causes. Where no chain is longer than some
bound, there are finitely many (`Grown.finite`).
-/

namespace Chains

variable {α : Type*} {next : List α → List α}

/-- A chain that grew one thing at a time, each caused at the end of the chain before it. -/
inductive Grown (next : List α → List α) : List α → Prop
  | nil : Grown next []
  | cons {a : α} {chain : List α} (hchain : Grown next chain) (ha : a ∈ next chain) :
    Grown next (a :: chain)

theorem grown_cons_iff {a : α} {chain : List α} :
    Grown next (a :: chain) ↔ Grown next chain ∧ a ∈ next chain := by
  constructor
  · intro h
    cases h with
    | cons hchain ha => exact ⟨hchain, ha⟩
  · rintro ⟨hchain, ha⟩
    exact .cons hchain ha

/-- What a chain ends in was caused by a chain. -/
theorem Grown.of_suffix {chain tail : List α} (h : Grown next chain) (hsuffix : tail <:+ chain) :
    Grown next tail := by
  obtain ⟨front, rfl⟩ := hsuffix
  induction front with
  | nil => exact h
  | cons a front ih => exact ih (grown_cons_iff.mp h).1

/-- The chains of a length. -/
def ofLength (next : List α → List α) : ℕ → List (List α)
  | 0 => [[]]
  | n + 1 => (ofLength next n).flatMap fun chain => (next chain).map (· :: chain)

theorem Grown.mem_ofLength {chain : List α} (h : Grown next chain) :
    chain ∈ ofLength next chain.length := by
  induction h with
  | nil => exact List.mem_singleton.mpr rfl
  | @cons a chain _ ha ih =>
    rw [List.length_cons, ofLength, List.mem_flatMap]
    exact ⟨chain, ih, List.mem_map.mpr ⟨a, ha, rfl⟩⟩

/-- **Chains of bounded length are finitely many.** -/
theorem Grown.finite {n : ℕ} (h : ∀ chain, Grown next chain → chain.length ≤ n) :
    {chain | Grown next chain}.Finite := by
  have hall : {chain | Grown next chain} ⊆
      ⋃ k ∈ Finset.range (n + 1), {chain | chain ∈ ofLength next k} := by
    intro chain hchain
    have hlength := h chain hchain
    rw [Set.mem_iUnion₂]
    exact ⟨chain.length, Finset.mem_range.mpr (by omega), Grown.mem_ofLength hchain⟩
  exact ((Finset.range (n + 1)).finite_toSet.biUnion fun k _ =>
    (ofLength next k).finite_toSet).subset hall

/-- No chain is longer than a bound where none is one longer than it. -/
theorem length_le_of_forall {n : ℕ} (h : ∀ chain, Grown next chain → chain.length ≠ n + 1)
    {chain : List α} (hchain : Grown next chain) : chain.length ≤ n := by
  by_contra hlong
  refine h (chain.drop (chain.length - (n + 1))) (hchain.of_suffix (List.drop_suffix _ _)) ?_
  rw [List.length_drop]
  omega

end Chains
