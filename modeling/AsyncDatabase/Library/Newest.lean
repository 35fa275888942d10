import Mathlib.Order.Defs.LinearOrder
import Mathlib.Data.Set.Basic
import Mathlib.Tactic

/-!
# The newest of what was delivered

A holder that keeps the newest thing it was handed, by a stamp the things bear. `IsNewest stamp S
held` says that what is held is the newest of a set, and nothing where the set is empty.

* `IsNewest.join`: what keeps the newer of two newest things keeps the newest of both sets,
  whichever it keeps where the stamps are the same;
* `IsNewest.unique`: where no two things of the set bear one stamp there is one answer, so holders
  that were handed the same set hold the same, whatever the order and however often.
-/

namespace Newest

variable {α σ : Type*} [LinearOrder σ] (stamp : α → σ)

/-- What is held is the newest of a set of things, and nothing where there is none. -/
def IsNewest (S : Set α) : Option α → Prop
  | none => S = ∅
  | some held => held ∈ S ∧ ∀ x ∈ S, stamp x ≤ stamp held

/-- No two things of a set bear one stamp. -/
def Coherent (S : Set α) : Prop := ∀ x ∈ S, ∀ y ∈ S, stamp x = stamp y → x = y

/-- The newer of what comes in and what is held, which stays where their stamps are the same. -/
def join (incoming held : Option α) : Option α :=
  match incoming, held with
  | none, held => held
  | some incoming, none => some incoming
  | some incoming, some held => if stamp held < stamp incoming then some incoming else some held

/-- A holder keeps one of two things, and nothing newer than it. -/
structure Keeps (incoming held : Option α) (kept : Option α) : Prop where
  one : kept = incoming ∨ kept = held
  newest : ∀ x, incoming = some x ∨ held = some x → ∃ y, kept = some y ∧ stamp x ≤ stamp y

variable {stamp}

theorem newest_singleton (x : α) : IsNewest stamp {x} (some x) :=
  ⟨rfl, fun y hy => by rw [Set.mem_singleton_iff.mp hy]⟩

/-- The newest of a set of which no two things bear one stamp is the only one. -/
theorem IsNewest.unique {S : Set α} (hS : Coherent stamp S) {a b : Option α}
    (ha : IsNewest stamp S a) (hb : IsNewest stamp S b) : a = b := by
  cases a with
  | none =>
    cases b with
    | none => rfl
    | some y =>
      have hempty : S = ∅ := ha
      rw [hempty] at hb
      exact absurd hb.1 (Set.notMem_empty y)
  | some x =>
    cases b with
    | none =>
      have hempty : S = ∅ := hb
      rw [hempty] at ha
      exact absurd ha.1 (Set.notMem_empty x)
    | some y => rw [hS x ha.1 y hb.1 (le_antisymm (hb.2 x ha.1) (ha.2 y hb.1))]

/-- **The rule for what is kept**: the newest of each of two sets, of which the newer is kept, is
the newest of both. -/
theorem IsNewest.keeps {S T : Set α} {a b kept : Option α} (ha : IsNewest stamp S a)
    (hb : IsNewest stamp T b) (h : Keeps stamp a b kept) : IsNewest stamp (S ∪ T) kept := by
  cases hkept : kept with
  | none =>
    have hnone : ∀ x, ¬(a = some x ∨ b = some x) := by
      intro x hx
      obtain ⟨y, hy, -⟩ := h.newest x hx
      rw [hkept] at hy
      cases hy
    have hanone : a = none := Option.eq_none_iff_forall_ne_some.mpr fun x hx => hnone x (Or.inl hx)
    have hbnone : b = none := Option.eq_none_iff_forall_ne_some.mpr fun x hx => hnone x (Or.inr hx)
    rw [hanone] at ha
    rw [hbnone] at hb
    exact Set.union_empty_iff.mpr ⟨ha, hb⟩
  | some y =>
    have hle : ∀ x, a = some x ∨ b = some x → stamp x ≤ stamp y := by
      intro x hx
      obtain ⟨z, hz, hle⟩ := h.newest x hx
      rw [hkept] at hz
      rwa [Option.some.inj hz]
    have hmem : y ∈ S ∪ T := by
      rcases h.one with heq | heq
      · rw [← heq, hkept] at ha
        exact Or.inl ha.1
      · rw [← heq, hkept] at hb
        exact Or.inr hb.1
    refine ⟨hmem, fun x hx => ?_⟩
    rcases hx with hx | hx
    · cases ha' : a with
      | none =>
        rw [ha'] at ha
        exact absurd hx (by rw [show S = ∅ from ha]; exact Set.notMem_empty x)
      | some z =>
        rw [ha'] at ha
        exact (ha.2 x hx).trans (hle z (Or.inl ha'))
    · cases hb' : b with
      | none =>
        rw [hb'] at hb
        exact absurd hx (by rw [show T = ∅ from hb]; exact Set.notMem_empty x)
      | some z =>
        rw [hb'] at hb
        exact (hb.2 x hx).trans (hle z (Or.inr hb'))

theorem keeps_join (incoming held : Option α) :
    Keeps stamp incoming held (join stamp incoming held) := by
  cases incoming with
  | none => exact ⟨Or.inr rfl, fun x hx => ⟨x, hx.resolve_left (by simp), le_refl _⟩⟩
  | some a =>
    cases held with
    | none => exact ⟨Or.inl rfl, fun x hx => ⟨x, hx.resolve_right (by simp), le_refl _⟩⟩
    | some b =>
      simp only [join]
      split_ifs with hlt
      · refine ⟨Or.inl rfl, fun x hx => ⟨a, rfl, ?_⟩⟩
        rcases hx with hx | hx
        · rw [Option.some.inj hx]
        · rw [← Option.some.inj hx]
          exact hlt.le
      · refine ⟨Or.inr rfl, fun x hx => ⟨b, rfl, ?_⟩⟩
        rcases hx with hx | hx
        · rw [← Option.some.inj hx]
          exact not_lt.mp hlt
        · rw [Option.some.inj hx]

theorem IsNewest.join {S T : Set α} {a b : Option α} (ha : IsNewest stamp S a)
    (hb : IsNewest stamp T b) : IsNewest stamp (S ∪ T) (join stamp a b) :=
  ha.keeps hb (keeps_join a b)

/-- The newest of a set stands for the whole of it. -/
theorem IsNewest.of_insert {S T : Set α} {a b : α} (ha : IsNewest stamp S (some a))
    (hb : IsNewest stamp ({a} ∪ T) (some b)) : IsNewest stamp (S ∪ T) (some b) := by
  refine ⟨?_, fun x hx => ?_⟩
  · rcases hb.1 with hmem | hmem
    · rw [Set.mem_singleton_iff.mp hmem]
      exact Or.inl ha.1
    · exact Or.inr hmem
  · rcases hx with hx | hx
    · exact (ha.2 x hx).trans (hb.2 a (Or.inl rfl))
    · exact hb.2 x (Or.inr hx)

/-- The newest of a set is the newest of every part it is in. -/
theorem IsNewest.of_subset {S T : Set α} {a : α} (h : IsNewest stamp S (some a)) (hsub : T ⊆ S)
    (hmem : a ∈ T) : IsNewest stamp T (some a) := ⟨hmem, fun x hx => h.2 x (hsub hx)⟩

/-- Whatever is held is the newest of the one thing it is, if of anything. -/
theorem newest_toSet (stamp : α → σ) (held : Option α) :
    IsNewest stamp {x | held = some x} held := by
  cases held with
  | none => exact Set.eq_empty_of_forall_notMem fun x hx => by cases hx
  | some x => exact ⟨rfl, fun y hy => by rw [Option.some.inj hy]⟩

/-! ### The newer of two things as a join -/

theorem join_self (a : Option α) : join stamp a a = a := by
  cases a with
  | none => rfl
  | some x => simp [join]

/-- Where things of one stamp are one thing, either may be said to come in. -/
theorem join_comm {a b : Option α}
    (hab : ∀ x y, a = some x → b = some y → stamp x = stamp y → x = y) :
    join stamp a b = join stamp b a := by
  have hcoherent : Coherent stamp ({x | a = some x} ∪ {x | b = some x}) := by
    rintro x (hx | hx) y (hy | hy) heq
    · exact Option.some.inj (hx.symm.trans hy)
    · exact hab x y hx hy heq
    · exact (hab y x hy hx heq.symm).symm
    · exact Option.some.inj (hx.symm.trans hy)
  have hleft := (newest_toSet stamp a).join (newest_toSet stamp b)
  have hright := (newest_toSet stamp b).join (newest_toSet stamp a)
  rw [Set.union_comm] at hright
  exact hleft.unique hcoherent hright

theorem join_assoc (a b c : Option α) :
    join stamp (join stamp a b) c = join stamp a (join stamp b c) := by
  cases a with
  | none => rfl
  | some x =>
    cases b with
    | none => cases c <;> rfl
    | some y =>
      cases c with
      | none => simp only [join]; split_ifs <;> rfl
      | some z =>
        simp only [join]
        split_ifs <;> grind [join]

end Newest
