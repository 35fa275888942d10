import AsyncDatabase.Library.Refinement
import AsyncDatabase.Leaders

/-!
# Terms raised by many threads

The terms a node has seen are an array of atomics that any thread raises: `raise_term` loads one,
compares, and exchanges, which fails where another thread got in first, and may fail for no reason.
Here the three are steps of their own (`RaiseRun.step`). `raises_are_atomic` says that what the
threads come to is each raise made in one step, as `Claimant.accept` makes it and with the answer it
gives; `raises_end` says that no thread is held up for ever by the others.
-/

namespace AsyncDatabase

open Machine

/-! ### The machine -/

/-- A term to raise a partition to. -/
abbrev Raise := Partition × ℤ

/-- Where a thread is in `raise_term`. -/
inductive RaiseStage where
  /-- `seen.load()`. -/
  | loading
  /-- `term > highest`. -/
  | comparing (highest : ℤ)
  /-- `compare_exchange_weak`. -/
  | exchanging (highest : ℤ)

/-- A thread in `raise_term`, and what it raises after that: `restore_terms` raises one partition
after another. -/
structure Raiser where
  raise : Raise
  stage : RaiseStage := .loading
  rest : List Raise := []

structure RaiseRun where
  terms : PartitionTerms
  raisers : Std.ExtTreeMap ℕ Raiser := ∅

inductive RaiseEvent where
  | accept (thread : ℕ) (key : Bytes) (term : ℤ)
  /-- A claim of this node's is told. -/
  | claimed (thread : ℕ) (partition : Partition) (revision : ℤ)
  | restore (thread : ℕ) (applied : PartitionTerms)
  /-- A thread takes its next step, in which an exchange may fail for no reason. -/
  | go (thread : ℕ) (weak : Bool)

namespace RaiseRun

/-- A thread goes on to raise what it is given, or is done. -/
def begins (s : RaiseRun) (thread : ℕ) : List Raise → RaiseRun
  | [] => { s with raisers := s.raisers.erase thread }
  | raise :: rest => { s with raisers := s.raisers.insert thread { raise, rest } }

/-- A thread that is in no call is given what to raise. -/
def starts (s : RaiseRun) (thread : ℕ) (raises : List Raise) : RaiseRun :=
  if thread ∈ s.raisers then s else s.begins thread raises

def comes (s : RaiseRun) (thread : ℕ) (r : Raiser) (stage : RaiseStage) : RaiseRun :=
  { s with raisers := s.raisers.insert thread { r with stage } }

/-- The next step of a thread. -/
def advance (s : RaiseRun) (thread : ℕ) (weak : Bool) (r : Raiser) : RaiseRun :=
  match r.stage with
  | .loading => s.comes thread r (.comparing (s.terms r.raise.1))
  | .comparing highest =>
    if highest < r.raise.2 then s.comes thread r (.exchanging highest) else s.begins thread r.rest
  | .exchanging highest =>
    if s.terms r.raise.1 = highest ∧ weak = false then
      { s with terms := Function.update s.terms r.raise.1 r.raise.2 }.begins thread r.rest
    else s.comes thread r (.comparing (s.terms r.raise.1))

/-- What a call of `accept` raises: what is ordered in no term is not fenced. -/
def acceptRaises (key : Bytes) (term : ℤ) : List Raise :=
  if term = 0 then [] else [(partitionOf key, term)]

def restoreRaises (applied : PartitionTerms) : List Raise :=
  (List.finRange partitionCount).map fun partition => (partition, applied partition)

def step (s : RaiseRun) : RaiseEvent → RaiseRun
  | .accept thread key term => s.starts thread (acceptRaises key term)
  | .claimed thread partition revision => s.starts thread [(partition, revision)]
  | .restore thread applied => s.starts thread (restoreRaises applied)
  | .go thread weak =>
    match s.raisers[thread]? with
    | none => s
    | some r => s.advance thread weak r

end RaiseRun

/-! ### What a thread's steps come to -/

/-- A raise made in one step. -/
def raiseStep (terms : PartitionTerms) (raise : Raise) : PartitionTerms :=
  raiseTo terms raise.1 raise.2

/-- The answer to a raise made in one step. -/
def raiseAnswer (terms : PartitionTerms) (raise : Raise) : Raise × Bool :=
  (raise, terms raise.1 ≤ raise.2)

namespace Raiser

/-- The raise a thread's next step comes to: the step that finds a term no older, or exchanges. -/
def effects (terms : PartitionTerms) (weak : Bool) (r : Raiser) : List Raise :=
  match r.stage with
  | .loading => if r.raise.2 ≤ terms r.raise.1 then [r.raise] else []
  | .comparing _ => []
  | .exchanging highest =>
    if terms r.raise.1 = highest ∧ weak = false ∨ r.raise.2 ≤ terms r.raise.1 then [r.raise] else []

/-- What a thread's next step returns. -/
def returns (terms : PartitionTerms) (weak : Bool) (r : Raiser) : List (Raise × Bool) :=
  match r.stage with
  | .loading => []
  | .comparing highest => if highest < r.raise.2 then [] else [(r.raise, r.raise.2 = highest)]
  | .exchanging highest =>
    if terms r.raise.1 = highest ∧ weak = false then [(r.raise, true)] else []

/-- What a thread is about to return of the raise it has made. -/
def pending (r : Raiser) : List (Raise × Bool) :=
  match r.stage with
  | .comparing highest => if highest < r.raise.2 then [] else [(r.raise, r.raise.2 = highest)]
  | .loading | .exchanging _ => []

/-- What a thread has still to raise. -/
def outstanding (r : Raiser) : List Raise :=
  if r.pending = [] then r.raise :: r.rest else r.rest

end Raiser

namespace RaiseRun

/-- What the steps of a thread give. -/
def ofThread {β : Type} (f : PartitionTerms → Bool → Raiser → List β) (thread : ℕ) (s : RaiseRun) :
    RaiseEvent → List β
  | .go other weak =>
    if other = thread then ((s.raisers[other]?).map (f s.terms weak)).getD [] else []
  | _ => []

def makes (thread : ℕ) : RaiseRun → RaiseEvent → List Raise := ofThread Raiser.effects thread

def returns (thread : ℕ) : RaiseRun → RaiseEvent → List (Raise × Bool) :=
  ofThread Raiser.returns thread

/-- The answers a thread's raises have where they are made. -/
def answers (thread : ℕ) (s : RaiseRun) (e : RaiseEvent) : List (Raise × Bool) :=
  (makes thread s e).map (raiseAnswer s.terms)

/-- What all the threads' steps come to. -/
def effects (s : RaiseRun) : RaiseEvent → List Raise
  | .go thread weak => makes thread s (.go thread weak)
  | _ => []

def pending (thread : ℕ) (s : RaiseRun) : List (Raise × Bool) :=
  ((s.raisers[thread]?).map Raiser.pending).getD []

def outstanding (thread : ℕ) (s : RaiseRun) : List Raise :=
  ((s.raisers[thread]?).map Raiser.outstanding).getD []

/-- What a thread is given to raise. -/
def asks (thread : ℕ) (s : RaiseRun) : RaiseEvent → List Raise
  | .accept other key term =>
    if other = thread ∧ other ∉ s.raisers then acceptRaises key term else []
  | .claimed other partition revision =>
    if other = thread ∧ other ∉ s.raisers then [(partition, revision)] else []
  | .restore other applied =>
    if other = thread ∧ other ∉ s.raisers then restoreRaises applied else []
  | .go .. => []

end RaiseRun

/-! ### What is left of a call -/

/-- Whether a step is a thread's own, and its exchange fails for no reason or does not. -/
def RaiseEvent.isStepOf (thread : ℕ) (weak : Bool) : RaiseEvent → Bool
  | .go other weak' => other = thread ∧ weak' = weak
  | _ => false

namespace Raiser

/-- At most how many steps a raise takes that is not begun. -/
def cost (terms : PartitionTerms) (raise : Raise) : ℕ := 2 * (raise.2 - terms raise.1).toNat + 3

/-- At most how many more steps a thread takes, where no exchange of its fails for no reason. -/
def left (terms : PartitionTerms) (r : Raiser) : ℕ :=
  (match r.stage with
    | .loading => cost terms r.raise
    | .comparing highest => 2 * (r.raise.2 - highest).toNat + 2
    | .exchanging highest => 2 * (r.raise.2 - highest).toNat + 1) + (r.rest.map (cost terms)).sum

end Raiser

def RaiseRun.left (thread : ℕ) (s : RaiseRun) : ℕ :=
  ((s.raisers[thread]?).map (Raiser.left s.terms)).getD 0

/-! ### What a step comes to -/

theorem raiseStep_of_le {terms : PartitionTerms} {raise : Raise} (h : raise.2 ≤ terms raise.1) :
    raiseStep terms raise = terms := by
  unfold raiseStep raiseTo
  rw [max_eq_left h, Function.update_eq_self]

theorem le_raiseStep (terms : PartitionTerms) (raise : Raise) : terms ≤ raiseStep terms raise := by
  intro partition
  unfold raiseStep raiseTo
  by_cases h : partition = raise.1
  · subst h
    rw [Function.update_self]
    exact le_max_left _ _
  · rw [Function.update_of_ne h]

theorem le_run_raiseStep (terms : PartitionTerms) (raises : List Raise) :
    terms ≤ run raiseStep terms raises := by
  induction raises generalizing terms with
  | nil => exact le_rfl
  | cons raise raises ih => exact (le_raiseStep terms raise).trans (ih _)

/-- **Where raises lead**: each partition stands at the newest term of it there was. -/
theorem isGreatest_run_raiseStep (terms : PartitionTerms) (raises : List Raise)
    (partition : Partition) :
    IsGreatest (insert (terms partition) {term | (partition, term) ∈ raises})
      (run raiseStep terms raises partition) := by
  induction raises generalizing terms with
  | nil => simp
  | cons raise raises ih =>
    obtain ⟨hmem, hupper⟩ := ih (raiseStep terms raise)
    have hstands := hupper (Set.mem_insert _ _)
    refine ⟨?_, ?_⟩
    · rcases hmem with hfirst | hlater
      · rw [run_cons, hfirst]
        by_cases hown : partition = raise.1
        · subst hown
          rcases le_total (terms raise.1) raise.2 with hle | hle
          · right
            rw [raiseStep, raiseTo, Function.update_self, max_eq_right hle]
            exact List.mem_cons_self
          · left
            rw [raiseStep_of_le hle]
        · left
          exact Function.update_of_ne hown ..
      · exact .inr (List.mem_cons_of_mem _ hlater)
    · rintro term (rfl | hterm)
      · exact (le_raiseStep terms raise partition).trans hstands
      · rcases List.mem_cons.mp hterm with rfl | hlater
        · refine le_trans ?_ hstands
          rw [raiseStep, raiseTo, Function.update_self]
          exact le_max_right _ _
        · exact hupper (.inr hlater)

/-- `accept` is its raise made in one step, with the answer the raise has there. -/
theorem accept_eq (s : Claimant) (key : Bytes) (term : ℤ) :
    s.accept key term =
      (((RaiseRun.acceptRaises key term).map (raiseAnswer s.terms)).all (·.2),
        { s with terms := run raiseStep s.terms (RaiseRun.acceptRaises key term) }) := by
  unfold Claimant.accept RaiseRun.acceptRaises
  split_ifs
  · rfl
  · simp [raiseAnswer, raiseStep]

/-- `restore_terms` with no other thread between its raises is what a node does in one step. -/
theorem restoreTerms_eq (s : Claimant) (applied : PartitionTerms) :
    s.restoreTerms applied =
      { s with terms := run raiseStep s.terms (RaiseRun.restoreRaises applied) } := by
  unfold Claimant.restoreTerms
  congr 1
  funext partition
  refine IsGreatest.unique ?_ (isGreatest_run_raiseStep s.terms _ partition)
  have hset :
      {term | (partition, term) ∈ RaiseRun.restoreRaises applied} = {applied partition} := by
    ext term
    simp [RaiseRun.restoreRaises, eq_comm]
  rw [hset]
  exact isGreatest_pair

namespace Raiser

/-- What a thread has loaded was there, and what it exchanges is newer. -/
def Sound (terms : PartitionTerms) (r : Raiser) : Prop :=
  match r.stage with
  | .loading => True
  | .comparing highest => highest ≤ terms r.raise.1
  | .exchanging highest => highest ≤ terms r.raise.1 ∧ highest < r.raise.2

variable {terms terms' : PartitionTerms} {r : Raiser}

theorem Sound.mono (h : r.Sound terms) (hle : terms ≤ terms') : r.Sound terms' := by
  obtain ⟨raise, stage, rest⟩ := r
  cases stage with
  | loading => trivial
  | comparing highest => exact le_trans h (hle raise.1)
  | exchanging highest => exact ⟨h.1.trans (hle raise.1), h.2⟩

theorem cost_mono (hle : terms ≤ terms') (raise : Raise) :
    cost terms' raise ≤ cost terms raise := by
  have hterm : terms raise.1 ≤ terms' raise.1 := hle raise.1
  unfold cost
  omega

theorem sum_cost_mono (hle : terms ≤ terms') (raises : List Raise) :
    (raises.map (cost terms')).sum ≤ (raises.map (cost terms)).sum :=
  List.sum_le_sum fun raise _ => cost_mono hle raise

theorem left_mono (hle : terms ≤ terms') (r : Raiser) : r.left terms' ≤ r.left terms := by
  obtain ⟨raise, stage, rest⟩ := r
  have hrest := sum_cost_mono hle rest
  cases stage with
  | loading => exact Nat.add_le_add (cost_mono hle raise) hrest
  | comparing | exchanging => exact Nat.add_le_add_left hrest _

theorem left_pos (terms : PartitionTerms) (r : Raiser) : 0 < r.left terms := by
  obtain ⟨raise, stage, rest⟩ := r
  cases stage <;> simp [left, cost]

end Raiser

namespace RaiseRun

variable {s : RaiseRun} {thread : ℕ}

/-- Where a thread is, with what it has returned, raised and left to do. -/
theorem raisers_begins (s : RaiseRun) (thread : ℕ) (raises : List Raise) :
    (s.begins thread raises).raisers[thread]? =
      raises.head?.map fun raise => { raise, rest := raises.tail } := by
  cases raises with
  | nil => exact Std.ExtTreeMap.getElem?_erase_self
  | cons raise rest => exact Std.ExtTreeMap.getElem?_insert_self

theorem raisers_begins_of_ne {other : ℕ} (hne : other ≠ thread) (raises : List Raise) :
    (s.begins thread raises).raisers[other]? = s.raisers[other]? := by
  cases raises with
  | nil => simp [begins, Std.ExtTreeMap.getElem?_erase, hne.symm]
  | cons raise rest => simp [begins, Std.ExtTreeMap.getElem?_insert, hne.symm]

theorem raisers_comes (s : RaiseRun) (thread : ℕ) (r : Raiser) (stage : RaiseStage) :
    (s.comes thread r stage).raisers[thread]? = some { r with stage } :=
  Std.ExtTreeMap.getElem?_insert_self

theorem raisers_comes_of_ne {other : ℕ} (hne : other ≠ thread) (r : Raiser) (stage : RaiseStage) :
    (s.comes thread r stage).raisers[other]? = s.raisers[other]? := by
  simp [comes, Std.ExtTreeMap.getElem?_insert, hne.symm]

theorem raisers_advance_of_ne {other : ℕ} (hne : other ≠ thread) (weak : Bool) (r : Raiser) :
    (s.advance thread weak r).raisers[other]? = s.raisers[other]? := by
  unfold advance
  split
  · exact raisers_comes_of_ne hne ..
  · split_ifs
    · exact raisers_comes_of_ne hne ..
    · exact raisers_begins_of_ne hne _
  · split_ifs
    · exact raisers_begins_of_ne hne _
    · exact raisers_comes_of_ne hne ..

theorem terms_begins (s : RaiseRun) (thread : ℕ) (raises : List Raise) :
    (s.begins thread raises).terms = s.terms := by
  cases raises <;> rfl

/-- **A step of a thread is the raise it comes to.** -/
theorem terms_advance {r : Raiser} (h : r.Sound s.terms) (thread : ℕ) (weak : Bool) :
    (s.advance thread weak r).terms = run raiseStep s.terms (r.effects s.terms weak) := by
  obtain ⟨raise, stage, rest⟩ := r
  cases stage with
  | loading =>
    show s.terms = _
    simp only [Raiser.effects]
    split_ifs with hle
    · exact (raiseStep_of_le hle).symm
    · rfl
  | comparing highest =>
    simp only [advance]
    split_ifs
    · rfl
    · exact terms_begins s thread rest
  | exchanging highest =>
    obtain ⟨-, hnewer⟩ := h
    simp only [advance, Raiser.effects]
    by_cases hexchange : s.terms raise.1 = highest ∧ weak = false
    · rw [if_pos hexchange, if_pos (.inl hexchange), terms_begins, run_cons, run_nil, raiseStep,
        raiseTo, max_eq_right (hexchange.1.trans_le hnewer.le)]
    · rw [if_neg hexchange]
      show s.terms = _
      split_ifs with hle
      · exact (raiseStep_of_le (hle.resolve_left hexchange)).symm
      · rfl

theorem pending_begins (s : RaiseRun) (thread : ℕ) (raises : List Raise) :
    (s.begins thread raises).pending thread = [] := by
  rw [pending, raisers_begins]
  cases raises <;> rfl

theorem pending_comes (s : RaiseRun) (thread : ℕ) (r : Raiser) (stage : RaiseStage) :
    (s.comes thread r stage).pending thread = { r with stage }.pending := by
  rw [pending, raisers_comes]
  rfl

theorem outstanding_begins (s : RaiseRun) (thread : ℕ) (raises : List Raise) :
    (s.begins thread raises).outstanding thread = raises := by
  rw [outstanding, raisers_begins]
  cases raises <;> rfl

theorem outstanding_comes (s : RaiseRun) (thread : ℕ) (r : Raiser) (stage : RaiseStage) :
    (s.comes thread r stage).outstanding thread = { r with stage }.outstanding := by
  rw [outstanding, raisers_comes]
  rfl

/-- What a thread returns of the raises it makes is the answer they had where they were made. -/
theorem pending_advance {r : Raiser} (h : r.Sound s.terms) (thread : ℕ) (weak : Bool) :
    r.pending ++ (r.effects s.terms weak).map (raiseAnswer s.terms) =
      r.returns s.terms weak ++ (s.advance thread weak r).pending thread := by
  obtain ⟨raise, stage, rest⟩ := r
  cases stage with
  | loading =>
    rw [advance, pending_comes]
    simp only [Raiser.pending, Raiser.effects, Raiser.returns, List.nil_append]
    split_ifs with hle hless hless
    · omega
    · simp [raiseAnswer, hle.ge_iff_eq]
    · rfl
    · omega
  | comparing highest =>
    simp only [Raiser.pending, Raiser.effects, Raiser.returns, advance, List.map_nil,
      List.append_nil]
    split_ifs with hless
    · rw [pending_comes]
      rfl
    · rw [pending_begins, List.append_nil]
  | exchanging highest =>
    obtain ⟨hfound, hnewer⟩ := h
    simp only [Raiser.pending, Raiser.effects, Raiser.returns, advance, List.nil_append]
    by_cases hexchange : s.terms raise.1 = highest ∧ weak = false
    · have hle : s.terms raise.1 ≤ raise.2 := hexchange.1.trans_le hnewer.le
      rw [if_pos hexchange, if_pos (.inl hexchange), if_pos hexchange, pending_begins]
      simp [raiseAnswer, hle]
    · rw [if_neg hexchange, if_neg hexchange, pending_comes]
      simp only [Raiser.pending, hexchange, false_or, List.nil_append]
      split_ifs with hle hless hless
      · omega
      · simp [raiseAnswer, hle.ge_iff_eq]
      · rfl
      · omega

/-- What a thread has still to raise is less by what it makes. -/
theorem outstanding_advance {r : Raiser} (h : r.Sound s.terms) (thread : ℕ) (weak : Bool) :
    r.outstanding = r.effects s.terms weak ++ (s.advance thread weak r).outstanding thread := by
  obtain ⟨raise, stage, rest⟩ := r
  cases stage with
  | loading =>
    rw [advance, outstanding_comes]
    simp only [Raiser.outstanding, Raiser.pending, Raiser.effects]
    by_cases hle : raise.2 ≤ s.terms raise.1
    · simp [hle, hle.not_gt]
    · simp [hle, lt_of_not_ge hle]
  | comparing highest =>
    simp only [Raiser.effects, advance, List.nil_append]
    split_ifs with hless
    · rw [outstanding_comes]
      simp [Raiser.outstanding, Raiser.pending, hless]
    · rw [outstanding_begins]
      simp [Raiser.outstanding, Raiser.pending, hless]
  | exchanging highest =>
    obtain ⟨hfound, hnewer⟩ := h
    simp only [Raiser.effects, advance]
    by_cases hexchange : s.terms raise.1 = highest ∧ weak = false
    · rw [if_pos hexchange, if_pos (.inl hexchange), outstanding_begins]
      rfl
    · rw [if_neg hexchange, outstanding_comes]
      simp only [Raiser.outstanding, Raiser.pending, hexchange, false_or]
      by_cases hle : raise.2 ≤ s.terms raise.1
      · simp [hle, hle.not_gt]
      · simp [hle, lt_of_not_ge hle]

theorem left_begins (s : RaiseRun) (thread : ℕ) (raises : List Raise) :
    (s.begins thread raises).left thread = (raises.map (Raiser.cost s.terms)).sum := by
  rw [left, raisers_begins, terms_begins]
  cases raises <;> rfl

theorem left_comes (s : RaiseRun) (thread : ℕ) (r : Raiser) (stage : RaiseStage) :
    (s.comes thread r stage).left thread = Raiser.left s.terms { r with stage } := by
  rw [left, raisers_comes]
  rfl

theorem left_advance {r : Raiser} (h : r.Sound s.terms) (thread : ℕ) :
    (s.advance thread false r).left thread < r.left s.terms := by
  obtain ⟨raise, stage, rest⟩ := r
  cases stage with
  | loading =>
    rw [advance, left_comes]
    simp only [Raiser.left, Raiser.cost]
    omega
  | comparing highest =>
    simp only [advance]
    split_ifs with hless
    · rw [left_comes]
      simp only [Raiser.left]
      omega
    · rw [left_begins]
      simp only [Raiser.left]
      omega
  | exchanging highest =>
    obtain ⟨hfound, hnewer⟩ := h
    simp only [advance]
    split_ifs with hexchange
    · have hraised : s.terms ≤ Function.update s.terms raise.1 raise.2 :=
        le_update_self_iff.mpr (hexchange.1.trans_le hnewer.le)
      have hrest := Raiser.sum_cost_mono hraised rest
      rw [left_begins]
      simp only [Raiser.left]
      omega
    · rw [left_comes]
      -- What it finds there now another thread has put there, over what it had loaded.
      have hmoved : highest ≠ s.terms raise.1 := fun heq => hexchange ⟨heq.symm, trivial⟩
      simp only [Raiser.left] at hfound hnewer ⊢
      omega

/-- An exchange that fails for no reason takes one step more. -/
theorem left_advance_weak {r : Raiser} (h : r.Sound s.terms) (thread : ℕ) :
    (s.advance thread true r).left thread ≤ r.left s.terms + 1 := by
  obtain ⟨raise, stage, rest⟩ := r
  cases stage with
  | loading | comparing => exact (left_advance h thread).le.trans (Nat.le_succ _)
  | exchanging highest =>
    obtain ⟨hfound, -⟩ := h
    simp only [advance]
    rw [if_neg (by simp), left_comes]
    simp only [Raiser.left] at hfound ⊢
    omega

/-- Every thread is where it may be. -/
def Sound (s : RaiseRun) : Prop :=
  ∀ (thread : ℕ) (r : Raiser), s.raisers[thread]? = some r → r.Sound s.terms

theorem Sound.begins (h : s.Sound) (thread : ℕ) (raises : List Raise) :
    (s.begins thread raises).Sound := by
  intro other r hr
  rw [terms_begins]
  by_cases hother : other = thread
  · subst hother
    rw [raisers_begins] at hr
    obtain ⟨raise, -, rfl⟩ := Option.map_eq_some_iff.mp hr
    trivial
  · rw [raisers_begins_of_ne hother] at hr
    exact h other r hr

theorem Sound.comes (h : s.Sound) (thread : ℕ) {r : Raiser} {stage : RaiseStage}
    (hr : { r with stage }.Sound s.terms) : (s.comes thread r stage).Sound := by
  intro other r' hr'
  by_cases hother : other = thread
  · subst hother
    rw [raisers_comes] at hr'
    obtain rfl := Option.some_injective _ hr'
    exact hr
  · rw [raisers_comes_of_ne hother] at hr'
    exact h other r' hr'

theorem Sound.starts (h : s.Sound) (thread : ℕ) (raises : List Raise) :
    (s.starts thread raises).Sound := by
  unfold RaiseRun.starts
  split_ifs
  · exact h
  · exact h.begins thread raises

theorem Sound.advance (h : s.Sound) {r : Raiser} (hr : r.Sound s.terms) (thread : ℕ) (weak : Bool) :
    (s.advance thread weak r).Sound := by
  obtain ⟨raise, stage, rest⟩ := r
  cases stage with
  | loading => exact h.comes thread le_rfl
  | comparing highest =>
    simp only [RaiseRun.advance]
    split_ifs with hless
    · exact h.comes thread ⟨hr, hless⟩
    · exact h.begins thread rest
  | exchanging highest =>
    simp only [RaiseRun.advance]
    split_ifs with hexchange
    · have hraised : s.terms ≤ Function.update s.terms raise.1 raise.2 :=
        le_update_self_iff.mpr (hexchange.1.trans_le hr.2.le)
      refine Sound.begins ?_ thread rest
      exact fun other r' hr' => (h other r' hr').mono hraised
    · exact h.comes thread le_rfl

theorem Sound.step (h : s.Sound) (e : RaiseEvent) : (s.step e).Sound := by
  cases e with
  | accept thread key term => exact h.starts thread _
  | claimed thread partition revision => exact h.starts thread _
  | restore thread applied => exact h.starts thread _
  | go thread weak =>
    simp only [RaiseRun.step]
    split
    · exact h
    · exact h.advance (h thread _ ‹_›) thread weak

/-- A step of one thread leaves the others where they are. -/
theorem raisers_step_of_ne {other : ℕ} (hne : other ≠ thread) (weak : Bool) :
    (s.step (.go thread weak)).raisers[other]? = s.raisers[other]? := by
  simp only [step]
  split
  · rfl
  · exact raisers_advance_of_ne hne weak _

theorem raisers_starts_of_ne {other : ℕ} (hne : other ≠ thread) (raises : List Raise) :
    (s.starts thread raises).raisers[other]? = s.raisers[other]? := by
  unfold starts
  split_ifs
  · rfl
  · exact raisers_begins_of_ne hne raises

theorem terms_starts (s : RaiseRun) (thread : ℕ) (raises : List Raise) :
    (s.starts thread raises).terms = s.terms := by
  unfold starts
  split_ifs
  · rfl
  · exact terms_begins s thread raises

theorem terms_step (h : s.Sound) (e : RaiseEvent) :
    (s.step e).terms = run raiseStep s.terms (effects s e) := by
  cases e with
  | accept thread key term => exact terms_starts s thread _
  | claimed thread partition revision => exact terms_starts s thread _
  | restore thread applied => exact terms_starts s thread _
  | go thread weak =>
    simp only [step, effects, makes, ofThread, if_true]
    split
    · simp [*]
    · rename_i r hr
      rw [hr]
      exact terms_advance (h thread r hr) thread weak

theorem outstanding_starts (s : RaiseRun) (other thread : ℕ) (raises : List Raise) :
    s.outstanding thread ++ (if other = thread ∧ other ∉ s.raisers then raises else []) =
      (s.starts other raises).outstanding thread := by
  by_cases hother : other = thread
  · subst hother
    unfold starts
    by_cases hin : other ∈ s.raisers
    · simp [hin]
    · have hidle : s.outstanding other = [] := by simp [outstanding, hin]
      simp [hin, hidle, outstanding_begins]
  · simp [hother, outstanding, raisers_starts_of_ne (Ne.symm hother)]

theorem pending_starts (s : RaiseRun) (other thread : ℕ) (raises : List Raise) :
    s.pending thread = (s.starts other raises).pending thread := by
  by_cases hother : other = thread
  · subst hother
    unfold starts
    by_cases hin : other ∈ s.raisers
    · simp [hin]
    · rw [if_neg hin, pending_begins]
      simp [pending, hin]
  · simp [pending, raisers_starts_of_ne (Ne.symm hother)]

/-- What a thread has to raise and is given to raise it makes, or has still to raise. -/
theorem outstanding_step (h : s.Sound) (thread : ℕ) (e : RaiseEvent) :
    s.outstanding thread ++ asks thread s e =
      makes thread s e ++ (s.step e).outstanding thread := by
  cases e with
  | accept other key term => exact outstanding_starts s other thread _
  | claimed other partition revision => exact outstanding_starts s other thread _
  | restore other applied => exact outstanding_starts s other thread _
  | go other weak =>
    by_cases hother : other = thread
    · subst hother
      cases hr : s.raisers[other]? with
      | none => simp [step, asks, makes, ofThread, hr]
      | some r => simpa [step, asks, makes, ofThread, outstanding, hr] using
          outstanding_advance (h other r hr) other weak
    · simp [asks, makes, ofThread, hother, outstanding, raisers_step_of_ne (Ne.symm hother)]

/-- What a thread is about to return and what its raises are answered it returns, or is about to. -/
theorem pending_step (h : s.Sound) (thread : ℕ) (e : RaiseEvent) :
    s.pending thread ++ answers thread s e = returns thread s e ++ (s.step e).pending thread := by
  cases e with
  | accept other key term =>
    exact (List.append_nil _).trans (pending_starts s other thread _)
  | claimed other partition revision =>
    exact (List.append_nil _).trans (pending_starts s other thread _)
  | restore other applied =>
    exact (List.append_nil _).trans (pending_starts s other thread _)
  | go other weak =>
    by_cases hother : other = thread
    · subst hother
      cases hr : s.raisers[other]? with
      | none => simp [step, answers, makes, returns, ofThread, hr]
      | some r => simpa [step, answers, makes, returns, ofThread, pending, hr] using
          pending_advance (h other r hr) other weak
    · simp [answers, makes, returns, ofThread, hother, pending,
        raisers_step_of_ne (Ne.symm hother)]

/-- What a step of the machine leaves to do of a call that is not over. -/
theorem left_step (h : s.Sound) (hin : thread ∈ s.raisers) (e : RaiseEvent) :
    (s.step e).left thread + (if e.isStepOf thread false then 1 else 0) ≤
      s.left thread + (if e.isStepOf thread true then 1 else 0) := by
  have hstarts : ∀ other raises, (s.starts other raises).left thread ≤ s.left thread := by
    intro other raises
    by_cases hother : other = thread
    · subst hother
      rw [starts, if_pos hin]
    · rw [left, raisers_starts_of_ne (Ne.symm hother), terms_starts]
      exact le_rfl
  cases e with
  | accept other key term => exact hstarts other _
  | claimed other partition revision => exact hstarts other _
  | restore other applied => exact hstarts other _
  | go other weak =>
    by_cases hother : other = thread
    · subst hother
      obtain ⟨r, hr⟩ := Option.isSome_iff_exists.mp (Std.ExtTreeMap.mem_iff_isSome_getElem?.mp hin)
      have hr' := h other r hr
      have hthis : s.left other = r.left s.terms := by simp [left, hr]
      simp only [step, hr, RaiseEvent.isStepOf, hthis]
      cases weak with
      | false => simpa using left_advance hr' other
      | true => simpa using left_advance_weak hr' other
    · have hterms : s.terms ≤ (s.step (.go other weak)).terms := by
        rw [terms_step h]
        exact le_run_raiseStep s.terms _
      obtain ⟨r, hr⟩ := Option.isSome_iff_exists.mp (Std.ExtTreeMap.mem_iff_isSome_getElem?.mp hin)
      simpa [left, raisers_step_of_ne (Ne.symm hother), hr, RaiseEvent.isStepOf, hother] using
        Raiser.left_mono hterms r

theorem sound_step (s : RaiseRun) (e : RaiseEvent) (h : s.Sound) (_ : True) : (s.step e).Sound :=
  h.step e

theorem sound_run (terms : PartitionTerms) (es : List RaiseEvent) :
    (run step { terms } es).Sound :=
  (throughout_true _ es).invariant sound_step fun thread r hr => by simp at hr

end RaiseRun

section

open RaiseRun

/-- **Raises are atomic.** Whatever any number of threads raise, and however their loads, their
comparisons and their exchanges come between one another: the terms there are, at the end of any
run, are those that come of the raises made whole, one after the other, so that each partition
stands at the newest term it was raised to. Each thread makes just the raises it was given, in their
order, and is answered of each whether a newer term stood there where it was made. -/
theorem raises_are_atomic (terms : PartitionTerms) (es : List RaiseEvent) :
    let raises := history step effects { terms } es
    let s := run step { terms } es
    (s.terms = run raiseStep terms raises ∧ ∀ partition,
      IsGreatest (insert (terms partition) {term | (partition, term) ∈ raises})
        (s.terms partition)) ∧
    ∀ thread,
      history step (asks thread) { terms } es =
        history step (makes thread) { terms } es ++ s.outstanding thread ∧
      history step (answers thread) { terms } es =
        history step (returns thread) { terms } es ++ s.pending thread := by
  intro raises s
  have hstart := sound_run terms []
  have hall : Throughout step (fun _ _ => True) { terms } es := throughout_true _ es
  have hterms : s.terms = run raiseStep terms raises :=
    hall.refines RaiseRun.terms sound_step (fun s e h _ => terms_step h e) hstart
  refine ⟨⟨hterms, fun partition => ?_⟩, fun thread => ⟨?_, ?_⟩⟩
  · rw [hterms]
    exact isGreatest_run_raiseStep terms raises partition
  · have hconserved := hall.conserves (outstanding thread) sound_step
      (fun s e h _ => outstanding_step h thread e) hstart
    simpa [outstanding] using hconserved
  · have hconserved := hall.conserves (pending thread) sound_step
      (fun s e h _ => pending_step h thread e) hstart
    simpa [pending] using hconserved

/-- A thread that is in a call to the end has no steps left over. -/
theorem over_of_steps {s : RaiseRun} (h : s.Sound) (thread : ℕ) (es : List RaiseEvent)
    (hsteps : s.left thread + es.countP (RaiseEvent.isStepOf thread true) ≤
      es.countP (RaiseEvent.isStepOf thread false)) :
    ∃ a b, es = a ++ b ∧ thread ∉ (run step s a).raisers := by
  induction es generalizing s with
  | nil =>
    refine ⟨[], [], rfl, fun hin => ?_⟩
    obtain ⟨r, hr⟩ := Option.isSome_iff_exists.mp (Std.ExtTreeMap.mem_iff_isSome_getElem?.mp hin)
    have hleft := r.left_pos s.terms
    simp only [left, run_nil] at hsteps hr
    simp [hr] at hsteps
    omega
  | cons e es ih =>
    by_cases hin : thread ∈ s.raisers
    · have hstep := left_step h hin e
      rw [List.countP_cons, List.countP_cons] at hsteps
      obtain ⟨a, b, rfl, hover⟩ := ih (h.step e) (by omega)
      exact ⟨e :: a, b, rfl, hover⟩
    · exact ⟨[], e :: es, rfl, hin⟩

/-- **Every raise ends.** From any state that any run gets to, a call is over once its thread has
taken as many steps as `left` bounds, and one more for each exchange of its that failed for no
reason, whatever the other threads do meanwhile. -/
theorem raises_end (terms : PartitionTerms) (es es' : List RaiseEvent) (thread : ℕ)
    (hsteps : (run step { terms } es).left thread + es'.countP (RaiseEvent.isStepOf thread true) ≤
      es'.countP (RaiseEvent.isStepOf thread false)) :
    ∃ a b, es' = a ++ b ∧ thread ∉ (run step { terms } (es ++ a)).raisers := by
  obtain ⟨a, b, hsplit, hover⟩ := over_of_steps (sound_run terms es) thread es' hsteps
  exact ⟨a, b, hsplit, by rwa [run_append]⟩

/-- A raise by one term, whose first exchange fails for no reason. -/
theorem raises_end_weakly :
    ∃ a b, [RaiseEvent.go 0 false, .go 0 false, .go 0 true, .go 0 false, .go 0 false, .go 0 false,
        .go 0 false] = a ++ b ∧
      0 ∉ (run step { terms := 0 } ([.claimed 0 ⟨0, by decide⟩ 1] ++ a)).raisers :=
  raises_end 0 [.claimed 0 ⟨0, by decide⟩ 1]
    [.go 0 false, .go 0 false, .go 0 true, .go 0 false, .go 0 false, .go 0 false, .go 0 false] 0
    (by decide)

end

end AsyncDatabase
