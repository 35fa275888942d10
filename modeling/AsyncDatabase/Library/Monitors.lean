import AsyncDatabase.Library.Refinement
import Mathlib.Algebra.Order.BigOperators.Group.Finset

/-!
# Monitors

A class with one mutex and some condition variables. An operation takes the mutex, waits until what
it waits for is there, does what it does and gives the mutex back before it notifies. A wait gives
the mutex up, and ends by a notification or for no reason; whoever it was looks again.

* `Monitor.step`: the threads of a monitor, a step at a time.
* `state_step` and `Held.ready`: an operation is as if it were made whole in one step, where it is
  ready.
* `Signals`: what a monitor has to notify, and when. `Minded.step` and `shut_of_stuck`: then no
  thread sleeps through what it waits for.
* `moved_add_potential_le`: between calls only so many steps are taken.
-/

namespace Machine

/-- What the operations of a monitor wait for, do and notify. -/
structure Monitor (σ χ ω ρ : Type*) where
  /-- The condition variable an operation waits on, if it waits. -/
  waitsOn : ω → Option χ
  /-- What is waited for on a condition variable. -/
  opens : χ → σ → Bool
  act : ω → σ → σ
  result : ω → σ → ρ
  /-- What is notified once the mutex is given back: one thread, or all. -/
  notifies : ω → σ → Option (χ × Bool)

namespace Monitor

variable {σ χ ω ρ ι : Type*}

/-- Where a thread is in an operation. -/
inductive Stage (χ ω ρ : Type*) where
  /-- It waits for the mutex. -/
  | entering (op : ω)
  /-- It has the mutex, and looks whether it has to wait. -/
  | inside (op : ω)
  /-- It has the mutex, and does not have to wait. -/
  | doing (op : ω)
  | asleep (op : ω)
  /-- It has given the mutex back, and is to notify and to return. -/
  | leaving (notice : Option (χ × Bool)) (result : ρ)

/-- The threads of a monitor. -/
structure Threads (σ χ ω ρ ι : Type*) where
  state : σ
  mutex : Option ι := none
  stages : ι → Option (Stage χ ω ρ) := fun _ => none

inductive Event (ω ι : Type*) where
  | call (thread : ι) (op : ω)
  /-- A thread takes its next step, and wakes `chosen` where it wakes one. -/
  | go (thread chosen : ι)
  /-- A wait ends for no reason. -/
  | wake (thread : ι)

/-- A thread that slept wants the mutex again. -/
def Stage.woken : Stage χ ω ρ → Stage χ ω ρ
  | .asleep op => .entering op
  | .entering op => .entering op
  | .inside op => .inside op
  | .doing op => .doing op
  | .leaving notice result => .leaving notice result

variable (m : Monitor σ χ ω ρ) [DecidableEq ι]

/-- Whether an operation does not have to wait. -/
def ready (op : ω) (x : σ) : Bool := (m.waitsOn op).all fun c => m.opens c x

namespace Threads

variable (s : Threads σ χ ω ρ ι)

def comes (thread : ι) (stage : Option (Stage χ ω ρ)) : Threads σ χ ω ρ ι :=
  { s with stages := Function.update s.stages thread stage }

/-- Of the threads that `p` holds of, those that sleep wake. -/
def rouse (p : ι → Bool) : Threads σ χ ω ρ ι :=
  { s with
    stages := fun thread =>
      if p thread then (s.stages thread).map Stage.woken else s.stages thread }

variable {s}

theorem stages_comes (s : Threads σ χ ω ρ ι) (thread : ι) (stage : Option (Stage χ ω ρ)) :
    (s.comes thread stage).stages thread = stage :=
  Function.update_self ..

theorem stages_comes_of_ne {thread other : ι} (hne : other ≠ thread)
    (stage : Option (Stage χ ω ρ)) : (s.comes thread stage).stages other = s.stages other :=
  Function.update_of_ne hne ..

omit [DecidableEq ι] in
/-- A thread that is roused is as it was, or slept. -/
theorem stages_rouse (s : Threads σ χ ω ρ ι) (p : ι → Bool) (thread : ι) :
    (s.rouse p).stages thread = s.stages thread ∧
        (p thread = true → ∀ op, s.stages thread ≠ some (.asleep op)) ∨
      ∃ op, s.stages thread = some (.asleep op) ∧ p thread = true ∧
        (s.rouse p).stages thread = some (.entering op) := by
  unfold rouse
  cases hp : p thread with
  | false => exact .inl ⟨by simp [hp], by simp⟩
  | true =>
    cases hstage : s.stages thread with
    | none => exact .inl ⟨by simp [hp, hstage], by simp⟩
    | some stage =>
      cases stage with
      | asleep op => exact .inr ⟨op, rfl, rfl, by simp [hp, hstage, Stage.woken]⟩
      | entering | inside | doing | leaving =>
        exact .inl ⟨by simp [hp, hstage, Stage.woken], by simp⟩

end Threads

/-! ### Who has the mutex -/

/-- Where a thread may be that has the mutex, or does not. -/
def MayBe (x : σ) (holds : Prop) : Option (Stage χ ω ρ) → Prop
  | none | some (.entering _) | some (.leaving _ _) => ¬holds
  | some (.inside _) => holds
  | some (.doing op) => holds ∧ m.ready op x = true
  | some (.asleep op) => ¬holds ∧ ∃ c, m.waitsOn op = some c

/-- One thread has the mutex at most, and is at what it is there for. -/
def Held (s : Threads σ χ ω ρ ι) : Prop :=
  ∀ thread, m.MayBe s.state (s.mutex = some thread) (s.stages thread)

section

variable {m} {s : Threads σ χ ω ρ ι}

/-- What a thread without the mutex is at does not depend on the state, nor on who else has it. -/
theorem MayBe.others {x y : σ} {P Q : Prop} {stage : Option (Stage χ ω ρ)} (hP : ¬P) (hQ : ¬Q)
    (h : m.MayBe x P stage) : m.MayBe y Q stage := by
  rcases stage with - | ⟨op | op | op | op | ⟨notice, result⟩⟩
  · exact hQ
  · exact hQ
  · exact absurd h hP
  · exact absurd h.1 hP
  · exact ⟨hQ, h.2⟩
  · exact hQ

omit [DecidableEq ι] in
theorem Held.rouse (h : m.Held s) (p : ι → Bool) : m.Held (s.rouse p) := by
  intro thread
  have hthread := h thread
  rcases s.stages_rouse p thread with ⟨hsame, -⟩ | ⟨op, hslept, -, hwoken⟩
  · rw [hsame]
    exact hthread
  · rw [hwoken]
    rw [hslept] at hthread
    exact hthread.1

/-- Who takes a step while the mutex is given back or kept leaves the others where they may be. -/
theorem Held.comes (h : m.Held s) {thread : ι} {stage : Option (Stage χ ω ρ)} {x : σ}
    {mutex : Option ι} (hmutex : ∀ other ≠ thread, s.mutex = some other ↔ mutex = some other)
    (hstate : x = s.state ∨ ∀ other ≠ thread, s.mutex ≠ some other)
    (hstage : m.MayBe x (mutex = some thread) stage) :
    m.Held { s.comes thread stage with state := x, mutex := mutex } := by
  intro other
  by_cases hother : other = thread
  · subst hother
    show m.MayBe x (mutex = some other) ((s.comes other stage).stages other)
    rw [s.stages_comes]
    exact hstage
  · have hbefore := h other
    show m.MayBe x (mutex = some other) ((s.comes thread stage).stages other)
    rw [Threads.stages_comes_of_ne hother]
    rcases hstate with rfl | hfree
    · rw [hmutex other hother] at hbefore
      exact hbefore
    · exact hbefore.others (hfree other hother) ((hmutex other hother).not.mp (hfree other hother))

end

/-! ### What a thread makes and returns -/

/-- What a thread's next step makes of the state. -/
def Stage.makes : Stage χ ω ρ → List ω
  | .doing op => [op]
  | .entering _ | .inside _ | .asleep _ | .leaving _ _ => []

/-- What a thread has still to return of what it has made. -/
def Stage.pending : Stage χ ω ρ → List ρ
  | .leaving _ result => [result]
  | .entering _ | .inside _ | .doing _ | .asleep _ => []

def Threads.pending (thread : ι) (s : Threads σ χ ω ρ ι) : List ρ :=
  ((s.stages thread).map Stage.pending).getD []

section

variable {s : Threads σ χ ω ρ ι}

omit [DecidableEq ι] in
theorem pending_rouse (s : Threads σ χ ω ρ ι) (p : ι → Bool) (thread : ι) :
    (s.rouse p).pending thread = s.pending thread := by
  unfold Threads.pending
  rcases s.stages_rouse p thread with ⟨hsame, -⟩ | ⟨op, hslept, -, hwoken⟩
  · rw [hsame]
  · rw [hwoken, hslept]
    rfl

theorem pending_comes (s : Threads σ χ ω ρ ι) (thread : ι) (stage : Option (Stage χ ω ρ)) :
    (s.comes thread stage).pending thread = (stage.map Stage.pending).getD [] := by
  rw [Threads.pending, s.stages_comes]

theorem pending_comes_of_ne {thread other : ι} (hne : other ≠ thread)
    (stage : Option (Stage χ ω ρ)) : (s.comes thread stage).pending other = s.pending other := by
  rw [Threads.pending, Threads.stages_comes_of_ne hne, Threads.pending]

end

variable [DecidableEq χ]

/-- Whether a thread sleeps on a condition variable. -/
def Stage.sleepsOn (c : χ) : Stage χ ω ρ → Bool
  | .asleep op => m.waitsOn op = some c
  | .entering _ | .inside _ | .doing _ | .leaving _ _ => false

/-- Whether a thread is awake in an operation that waits on a condition variable. -/
def Stage.isAwakeFor (c : χ) : Stage χ ω ρ → Bool
  | .entering op | .inside op | .doing op => m.waitsOn op = some c
  | .asleep _ | .leaving _ _ => false

/-- Whether a thread is about to notify a condition variable. -/
def Stage.isToNotify (c : χ) : Stage χ ω ρ → Bool
  | .leaving (some (c', _)) _ => c' = c
  | .leaving none _ | .entering _ | .inside _ | .doing _ | .asleep _ => false

/-- Whether a thread is about to notify all that wait on a condition variable. -/
def Stage.isToNotifyAll (c : χ) : Stage χ ω ρ → Bool
  | .leaving (some (c', all)) _ => c' = c ∧ all = true
  | .leaving none _ | .entering _ | .inside _ | .doing _ | .asleep _ => false

namespace Threads

variable (s : Threads σ χ ω ρ ι)

def sleepsOn (c : χ) (thread : ι) : Bool := (s.stages thread).any (Stage.sleepsOn m c)

variable [Fintype ι]

/-- `notify_one`, which wakes one of those that sleep, or nobody where none does, and `notify_all`.
Whom it wakes is not for the caller to say: a choice that cannot be leaves things as they are. -/
def notify (thread chosen : ι) : Option (χ × Bool) → Threads σ χ ω ρ ι
  | none => s.comes thread none
  | some (c, true) => (s.comes thread none).rouse (s.sleepsOn m c)
  | some (c, false) =>
    if s.sleepsOn m c chosen = true ∨ ∀ other, s.sleepsOn m c other = false then
      (s.comes thread none).rouse fun other => decide (other = chosen) && s.sleepsOn m c other
    else s

/-- The next step of a thread. -/
def advance (thread chosen : ι) : Stage χ ω ρ → Threads σ χ ω ρ ι
  | .entering op =>
    if s.mutex = none then { s.comes thread (some (.inside op)) with mutex := some thread } else s
  | .inside op =>
    if m.ready op s.state then s.comes thread (some (.doing op))
    else { s.comes thread (some (.asleep op)) with mutex := none }
  | .doing op =>
    { s.comes thread (some (.leaving (m.notifies op s.state) (m.result op s.state))) with
      mutex := none
      state := m.act op s.state }
  | .asleep _ => s
  | .leaving notice _ => s.notify m thread chosen notice

end Threads

variable [Fintype ι]

def step (s : Threads σ χ ω ρ ι) : Event ω ι → Threads σ χ ω ρ ι
  | .call thread op => if s.stages thread = none then s.comes thread (some (.entering op)) else s
  | .go thread chosen => ((s.stages thread).map (s.advance m thread chosen)).getD s
  | .wake thread => s.rouse fun other => decide (other = thread)

/-! ### What the steps of a thread come to -/

/-- The operations that a step makes. -/
def effects (s : Threads σ χ ω ρ ι) : Event ω ι → List (ι × ω)
  | .go thread _ => (((s.stages thread).map Stage.makes).getD []).map (Prod.mk thread)
  | .call _ _ | .wake _ => []

omit [DecidableEq ι] [DecidableEq χ] [Fintype ι] in
theorem effects_cases (s : Threads σ χ ω ρ ι) (e : Event ω ι) :
    effects s e = [] ∨ ∃ made, effects s e = [made] := by
  cases e with
  | call | wake => exact .inl rfl
  | go thread chosen =>
    simp only [effects]
    rcases s.stages thread with - | ⟨op | op | op | op | ⟨notice, result⟩⟩
    · exact .inl rfl
    · exact .inl rfl
    · exact .inl rfl
    · exact .inr ⟨(thread, op), rfl⟩
    · exact .inl rfl
    · exact .inl rfl

/-- An operation made whole. -/
def make (x : σ) (made : ι × ω) : σ := m.act made.2 x

/-- Whether a thread's step is one. -/
def Threads.moves (s : Threads σ χ ω ρ ι) (chosen : ι) : Stage χ ω ρ → Bool
  | .entering _ => s.mutex.isNone
  | .inside _ | .doing _ => true
  | .asleep _ => false
  | .leaving none _ | .leaving (some (_, true)) _ => true
  | .leaving (some (c, false)) _ =>
    s.sleepsOn m c chosen = true ∨ ∀ other, s.sleepsOn m c other = false

/-- What the operation of a thread is answered where it is made. -/
def answers (thread : ι) (s : Threads σ χ ω ρ ι) : Event ω ι → List ρ
  | .go other _ =>
    if other = thread then
      (((s.stages other).map Stage.makes).getD []).map fun op => m.result op s.state
    else []
  | .call _ _ | .wake _ => []

/-- What a thread's step returns. -/
def returns (thread : ι) (s : Threads σ χ ω ρ ι) : Event ω ι → List ρ
  | .go other chosen =>
    if other = thread ∧ (s.stages other).any (s.moves m chosen) = true then
      ((s.stages other).map Stage.pending).getD []
    else []
  | .call _ _ | .wake _ => []

/-! ### What one step can do -/

/-- What one step of a monitor can do. -/
inductive Moved (s : Threads σ χ ω ρ ι) : Threads σ χ ω ρ ι → Prop where
  | same : Moved s s
  | enters (thread : ι) (op : ω) (h : s.stages thread = none) :
    Moved s (s.comes thread (some (.entering op)))
  | locks (thread : ι) (op : ω) (h : s.stages thread = some (.entering op))
    (hfree : s.mutex = none) :
    Moved s { s.comes thread (some (.inside op)) with mutex := some thread }
  | passes (thread : ι) (op : ω) (h : s.stages thread = some (.inside op))
    (hready : m.ready op s.state = true) : Moved s (s.comes thread (some (.doing op)))
  | sleeps (thread : ι) (op : ω) (h : s.stages thread = some (.inside op))
    (hready : m.ready op s.state = false) :
    Moved s { s.comes thread (some (.asleep op)) with mutex := none }
  | does (thread : ι) (op : ω) (h : s.stages thread = some (.doing op)) :
    Moved s { s.comes thread (some (.leaving (m.notifies op s.state) (m.result op s.state))) with
      mutex := none
      state := m.act op s.state }
  | leaves (thread : ι) (notice : Option (χ × Bool)) (result : ρ) (p : ι → Bool)
    (h : s.stages thread = some (.leaving notice result))
    (hall : ∀ c, notice = some (c, true) → ∀ other, s.sleepsOn m c other = true → p other = true)
    (hone : ∀ c all, notice = some (c, all) →
      (∃ other, p other = true ∧ s.sleepsOn m c other = true) ∨
        ∀ other, s.sleepsOn m c other = false) :
    Moved s ((s.comes thread none).rouse p)
  | wakes (p : ι → Bool) : Moved s (s.rouse p)

namespace Threads

variable {s : Threads σ χ ω ρ ι}

theorem moved_notify {thread : ι} {notice : Option (χ × Bool)} {result : ρ}
    (h : s.stages thread = some (.leaving notice result)) (chosen : ι) :
    Moved m s (s.notify m thread chosen notice) := by
  rcases notice with - | ⟨c, all⟩
  · have hnobody : s.comes thread none = (s.comes thread none).rouse fun _ => false := by
      simp [rouse]
    unfold notify
    rw [hnobody]
    exact .leaves thread none result _ h (by simp) (by simp)
  cases all with
  | true =>
    refine .leaves thread _ result _ h (fun c' hc other hother => ?_) fun c' all hc => ?_
    · obtain ⟨rfl, -⟩ := Prod.mk.inj (Option.some.inj hc)
      exact hother
    · obtain ⟨rfl, -⟩ := Prod.mk.inj (Option.some.inj hc)
      by_cases hnobody : ∃ other, s.sleepsOn m c other = true
      · obtain ⟨other, hother⟩ := hnobody
        exact .inl ⟨other, hother, hother⟩
      · exact .inr fun other => Bool.eq_false_iff.mpr fun hother => hnobody ⟨other, hother⟩
  | false =>
    simp only [notify]
    split_ifs with hchosen
    · refine .leaves thread _ result _ h (by simp) fun c' all hc => ?_
      obtain ⟨rfl, -⟩ := Prod.mk.inj (Option.some.inj hc)
      exact hchosen.imp (fun hsleeps => ⟨chosen, by simp [hsleeps], hsleeps⟩) id
    · exact .same

end Threads

/-- **The cases of a step.** -/
theorem moved_step (s : Threads σ χ ω ρ ι) (e : Event ω ι) : Moved m s (m.step s e) := by
  cases e with
  | call thread op =>
    simp only [step]
    split_ifs with hidle
    · exact .enters thread op hidle
    · exact .same
  | wake thread => exact .wakes _
  | go thread chosen =>
    simp only [step]
    cases hstage : s.stages thread with
    | none => exact .same
    | some stage =>
      simp only [Option.map_some, Option.getD_some]
      cases stage with
      | entering op =>
        simp only [Threads.advance]
        split_ifs with hfree
        · exact .locks thread op hstage hfree
        · exact .same
      | inside op =>
        simp only [Threads.advance]
        split_ifs with hready
        · exact .passes thread op hstage hready
        · exact .sleeps thread op hstage (Bool.eq_false_iff.mpr hready)
      | doing op => exact .does thread op hstage
      | asleep op => exact .same
      | leaving notice result => exact Threads.moved_notify m hstage chosen

/-! ### Operations are atomic -/

section

variable {m} {s s' : Threads σ χ ω ρ ι}

omit [Fintype ι] in
theorem Held.moved (h : m.Held s) (hmoved : m.Moved s s') : m.Held s' := by
  cases hmoved with
  | same => exact h
  | enters thread op hstage =>
    have hthread := h thread
    rw [hstage] at hthread
    exact h.comes (fun _ _ => Iff.rfl) (.inl rfl) hthread
  | locks thread op hstage hfree =>
    refine h.comes (fun other hother => ?_) (.inl rfl) rfl
    simp [hfree, hother.symm]
  | passes thread op hstage hready =>
    have hthread := h thread
    rw [hstage] at hthread
    exact h.comes (fun _ _ => Iff.rfl) (.inl rfl) ⟨hthread, hready⟩
  | sleeps thread op hstage hready =>
    have hthread : s.mutex = some thread := by
      have hheld := h thread
      rw [hstage] at hheld
      exact hheld
    refine h.comes (fun other hother => ?_) (.inl rfl) ⟨by simp, ?_⟩
    · simp [hthread, hother.symm]
    · unfold ready at hready
      cases hwaits : m.waitsOn op with
      | none => simp [hwaits] at hready
      | some c => exact ⟨c, rfl⟩
  | does thread op hstage =>
    have hthread : s.mutex = some thread := by
      have hheld := h thread
      rw [hstage] at hheld
      exact hheld.1
    refine h.comes (fun other hother => ?_) (.inr fun other hother => ?_) (by simp [MayBe])
    · simp [hthread, hother.symm]
    · simp [hthread, hother.symm]
  | leaves thread notice result p hstage hall hone =>
    have hthread := h thread
    rw [hstage] at hthread
    have hleft : m.Held (s.comes thread none) := by
      refine h.comes (fun _ _ => Iff.rfl) (.inl rfl) ?_
      exact hthread
    exact hleft.rouse p
  | wakes p => exact h.rouse p

theorem Held.step (h : m.Held s) (e : Event ω ι) : m.Held (m.step s e) :=
  h.moved (moved_step m s e)

omit [DecidableEq χ] [Fintype ι] [DecidableEq ι] in
theorem held_start (x : σ) : m.Held ({ state := x } : Threads σ χ ω ρ ι) :=
  fun _ => by simp [MayBe]

theorem state_notify (thread chosen : ι) (notice : Option (χ × Bool)) :
    (s.notify m thread chosen notice).state = s.state := by
  rcases notice with - | ⟨c, all⟩
  · rfl
  · cases all with
    | true => rfl
    | false =>
      simp only [Threads.notify]
      split_ifs <;> rfl

/-- **A step is the operations it makes.** -/
theorem state_step (s : Threads σ χ ω ρ ι) (e : Event ω ι) :
    (m.step s e).state = run m.make s.state (effects s e) := by
  cases e with
  | call thread op =>
    simp only [step]
    split_ifs <;> rfl
  | wake thread => rfl
  | go thread chosen =>
    simp only [step, effects]
    cases hstage : s.stages thread with
    | none => rfl
    | some stage =>
      cases stage with
      | entering op =>
        simp only [Option.map_some, Option.getD_some, Threads.advance]
        split_ifs <;> rfl
      | inside op =>
        simp only [Option.map_some, Option.getD_some, Threads.advance]
        split_ifs <;> rfl
      | doing op => rfl
      | asleep op => rfl
      | leaving notice result => exact state_notify thread chosen notice

omit [DecidableEq ι] [DecidableEq χ] [Fintype ι] in
/-- What a step makes does not have to wait. -/
theorem Held.ready (h : m.Held s) (e : Event ω ι) :
    Throughout m.make (fun x made => m.ready made.2 x = true) s.state (effects s e) := by
  cases e with
  | call thread op => trivial
  | wake thread => trivial
  | go thread chosen =>
    have hthread := h thread
    simp only [effects]
    cases hstage : s.stages thread with
    | none => trivial
    | some stage =>
      cases stage with
      | doing op =>
        rw [hstage] at hthread
        exact ⟨hthread.2, trivial⟩
      | entering | inside | asleep | leaving => trivial

theorem pending_advance_of_ne {thread other : ι} (hne : other ≠ thread) (chosen : ι)
    (stage : Stage χ ω ρ) : (s.advance m thread chosen stage).pending other = s.pending other := by
  have hcomes := fun stage => pending_comes_of_ne (s := s) hne stage
  cases stage with
  | entering op =>
    simp only [Threads.advance]
    split_ifs
    · exact hcomes _
    · rfl
  | inside op =>
    simp only [Threads.advance]
    split_ifs
    · exact hcomes _
    · exact hcomes _
  | doing op => exact hcomes _
  | asleep op => rfl
  | leaving notice result =>
    rcases notice with - | ⟨c, - | -⟩
    · exact hcomes none
    · simp only [Threads.advance, Threads.notify]
      split_ifs
      · rw [pending_rouse, hcomes]
      · rfl
    · simp only [Threads.advance, Threads.notify]
      rw [pending_rouse, hcomes]

theorem pending_advance {thread : ι} {stage : Stage χ ω ρ} (h : s.stages thread = some stage)
    (chosen : ι) :
    stage.pending ++ (stage.makes.map fun op => m.result op s.state) =
      (if s.moves m chosen stage = true then stage.pending else []) ++
        (s.advance m thread chosen stage).pending thread := by
  have hcomes := fun stage => pending_comes s thread stage
  have hthread : s.pending thread = stage.pending := by simp [Threads.pending, h]
  cases stage with
  | entering op =>
    simp only [Threads.advance, Stage.pending, Stage.makes, List.map_nil, ite_self]
    split_ifs
    · exact (hcomes (some (.inside op))).symm
    · exact hthread.symm
  | inside op =>
    simp only [Threads.advance, Stage.pending, Stage.makes, List.map_nil, ite_self]
    split_ifs
    · exact (hcomes (some (.doing op))).symm
    · exact (hcomes (some (.asleep op))).symm
  | doing op =>
    exact (hcomes (some (.leaving (m.notifies op s.state) (m.result op s.state)))).symm
  | asleep op => exact hthread.symm
  | leaving notice result =>
    rcases notice with - | ⟨c, - | -⟩
    · exact congrArg (result :: ·) (hcomes none).symm
    · simp only [Threads.advance, Threads.notify, Threads.moves, decide_eq_true_eq]
      split_ifs
      · rw [pending_rouse, hcomes]
        rfl
      · rw [hthread]
        rfl
    · simp only [Threads.advance, Threads.notify, Threads.moves, if_true]
      rw [pending_rouse, hcomes]
      rfl

/-- What a thread has to return and is answered it returns, or has to return then. -/
theorem pending_step (s : Threads σ χ ω ρ ι) (thread : ι) (e : Event ω ι) :
    s.pending thread ++ answers m thread s e =
      returns m thread s e ++ (m.step s e).pending thread := by
  cases e with
  | call other op =>
    simp only [answers, returns, step, List.append_nil, List.nil_append]
    split_ifs with hidle
    · by_cases hother : thread = other
      · subst hother
        rw [pending_comes, Threads.pending, hidle]
        rfl
      · rw [pending_comes_of_ne hother]
    · rfl
  | wake other =>
    simp only [answers, returns, step, List.append_nil, List.nil_append]
    rw [pending_rouse]
  | go other chosen =>
    simp only [answers, returns, step]
    cases hstage : s.stages other with
    | none => simp
    | some stage =>
      simp only [Option.map_some, Option.getD_some, Option.any_some]
      by_cases hother : other = thread
      · subst hother
        have hpending : s.pending other = stage.pending := by simp [Threads.pending, hstage]
        simp only [hpending, true_and, if_true]
        exact pending_advance hstage chosen
      · simp only [hother, false_and, if_false, List.append_nil, List.nil_append]
        exact (pending_advance_of_ne (Ne.symm hother) chosen stage).symm

/-- What a step does to the thread that takes it: it makes its operation, or it returns, or it goes
on with nothing made and nothing returned. -/
theorem go_cases {thread : ι} {stage : Stage χ ω ρ} (h : s.stages thread = some stage)
    (chosen : ι) :
    (∃ op, stage = .doing op ∧ (m.step s (.go thread chosen)).state = m.act op s.state ∧
      (m.step s (.go thread chosen)).stages thread =
        some (.leaving (m.notifies op s.state) (m.result op s.state)) ∧
      returns m thread s (.go thread chosen) = []) ∨
    (m.step s (.go thread chosen)).state = s.state ∧ stage.makes = [] ∧
      ((∃ stage', (m.step s (.go thread chosen)).stages thread = some stage' ∧
          stage'.pending = stage.pending ∧ returns m thread s (.go thread chosen) = []) ∨
        ∃ notice result, stage = .leaving notice result ∧
          (m.step s (.go thread chosen)).stages thread = none ∧
          returns m thread s (.go thread chosen) = [result]) := by
  have hstep : m.step s (.go thread chosen) = s.advance m thread chosen stage := by simp [step, h]
  have hcomes := fun stage => s.stages_comes thread stage
  rw [hstep]
  cases stage with
  | entering op =>
    refine .inr ⟨?_, rfl, .inl ?_⟩
    · simp only [Threads.advance]
      split_ifs <;> rfl
    · simp only [Threads.advance]
      split_ifs
      · exact ⟨.inside op, hcomes _, rfl, by simp [returns, h, Stage.pending]⟩
      · exact ⟨.entering op, h, rfl, by simp [returns, h, Stage.pending]⟩
  | inside op =>
    refine .inr ⟨?_, rfl, .inl ?_⟩
    · simp only [Threads.advance]
      split_ifs <;> rfl
    · simp only [Threads.advance]
      split_ifs
      · exact ⟨.doing op, hcomes _, rfl, by simp [returns, h, Stage.pending]⟩
      · exact ⟨.asleep op, hcomes _, rfl, by simp [returns, h, Stage.pending]⟩
  | doing op => exact .inl ⟨op, rfl, rfl, hcomes _, by simp [returns, h, Stage.pending]⟩
  | asleep op =>
    exact .inr ⟨rfl, rfl, .inl ⟨.asleep op, h, rfl, by simp [returns, h, Stage.pending]⟩⟩
  | leaving notice result =>
    refine .inr ⟨state_notify thread chosen notice, rfl, ?_⟩
    have hleaves : ∀ p : ι → Bool, ((s.comes thread none).rouse p).stages thread = none := by
      intro p
      simp [Threads.rouse, s.stages_comes]
    by_cases hmoves : s.moves m chosen (.leaving notice result) = true
    · refine .inr ⟨notice, result, rfl, ?_, by simp [returns, h, hmoves, Stage.pending]⟩
      rcases notice with - | ⟨c, - | -⟩
      · exact hcomes none
      · simp only [Threads.moves, decide_eq_true_eq] at hmoves
        simp only [Threads.advance, Threads.notify]
        rw [if_pos hmoves]
        exact hleaves _
      · exact hleaves _
    · refine .inl ⟨.leaving notice result, ?_, rfl, by simp [returns, h, hmoves]⟩
      rcases notice with - | ⟨c, - | -⟩
      · exact absurd rfl hmoves
      · simp only [Threads.moves, decide_eq_true_eq] at hmoves
        simp only [Threads.advance, Threads.notify]
        rw [if_neg hmoves]
        exact h
      · exact absurd rfl hmoves

/-- A step of one thread leaves the others in their calls, or out of them. -/
theorem stages_go_of_ne {thread other : ι} (hne : other ≠ thread) (chosen : ι) :
    (m.step s (.go thread chosen)).stages other = s.stages other ∨
      ∃ op, s.stages other = some (.asleep op) ∧
        (m.step s (.go thread chosen)).stages other = some (.entering op) := by
  have hcomes := fun stage => Threads.stages_comes_of_ne (s := s) hne stage
  have hroused : ∀ p, ((s.comes thread none).rouse p).stages other = s.stages other ∨
      ∃ op, s.stages other = some (.asleep op) ∧
        ((s.comes thread none).rouse p).stages other = some (.entering op) := by
    intro p
    rcases (s.comes thread none).stages_rouse p other with ⟨hsame, -⟩ | ⟨op, hslept, -, hwoken⟩
    · exact .inl (hsame.trans (hcomes none))
    · exact .inr ⟨op, (hcomes none).symm.trans hslept, hwoken⟩
  cases hstage : s.stages thread with
  | none => exact .inl (by simp [step, hstage])
  | some stage =>
    simp only [step, hstage, Option.map_some, Option.getD_some]
    cases stage with
    | entering op =>
      simp only [Threads.advance]
      split_ifs
      · exact .inl (hcomes _)
      · exact .inl rfl
    | inside op =>
      simp only [Threads.advance]
      split_ifs
      · exact .inl (hcomes _)
      · exact .inl (hcomes _)
    | doing op => exact .inl (hcomes _)
    | asleep op => exact .inl rfl
    | leaving notice result =>
      rcases notice with - | ⟨c, - | -⟩
      · exact .inl (hcomes none)
      · simp only [Threads.advance, Threads.notify]
        split_ifs
        · exact hroused _
        · exact .inl rfl
      · exact hroused _

end

/-! ### No wake-up is lost -/

/-- What a monitor has to notify: whoever makes something there that others may wait for says so,
unless it was there before and it is not one of those who wait for it. What is there for good
(`settled`) is said to all, once. -/
structure Signals (settled : χ → σ → Prop) : Prop where
  opens_of_settled : ∀ c x, settled c x → m.opens c x = true
  settled_act : ∀ op c x, m.ready op x = true → settled c x → settled c (m.act op x)
  notifies_all : ∀ op c x, m.ready op x = true → settled c (m.act op x) →
    settled c x ∨ m.notifies op x = some (c, true)
  notifies : ∀ op c x, m.ready op x = true → m.opens c (m.act op x) = true →
    settled c (m.act op x) ∨ (∃ all, m.notifies op x = some (c, all)) ∨
      m.opens c x = true ∧ m.waitsOn op ≠ some c

/-- Where a thread sleeps through what it waits for, another is about to wake one that does, or was
woken itself and is to see it. -/
structure Minded (settled : χ → σ → Prop) (s : Threads σ χ ω ρ ι) : Prop where
  all : ∀ c thread, s.sleepsOn m c thread = true → settled c s.state →
    ∃ other, (s.stages other).any (Stage.isToNotifyAll c) = true
  one : ∀ c thread, s.sleepsOn m c thread = true → m.opens c s.state = true →
    ∃ other, (s.stages other).any (Stage.isToNotify c) = true ∨
      (s.stages other).any (Stage.isAwakeFor m c) = true

section

variable {m} {s s' : Threads σ χ ω ρ ι} {settled : χ → σ → Prop}

omit [DecidableEq ι] [Fintype ι] in
theorem sleepsOn_iff {c : χ} {thread : ι} :
    s.sleepsOn m c thread = true ↔
      ∃ op, s.stages thread = some (.asleep op) ∧ m.waitsOn op = some c := by
  unfold Threads.sleepsOn
  rw [Option.any_eq_true]
  constructor
  · rintro ⟨stage, hstage, hsleeps⟩
    cases stage with
    | asleep op => exact ⟨op, hstage, by simpa [Stage.sleepsOn] using hsleeps⟩
    | entering | inside | doing | leaving => simp [Stage.sleepsOn] at hsleeps
  · rintro ⟨op, hstage, hwaits⟩
    exact ⟨_, hstage, by simpa [Stage.sleepsOn] using hwaits⟩

omit [DecidableEq ι] [Fintype ι] in
theorem sleepsOn_rouse {p : ι → Bool} {c : χ} {thread : ι}
    (h : (s.rouse p).sleepsOn m c thread = true) :
    s.sleepsOn m c thread = true ∧ p thread = false := by
  obtain ⟨op, hstage, hwaits⟩ := sleepsOn_iff.mp h
  rcases s.stages_rouse p thread with ⟨hsame, hawake⟩ | ⟨other, -, -, hwoken⟩
  · rw [hsame] at hstage
    exact ⟨sleepsOn_iff.mpr ⟨op, hstage, hwaits⟩,
      Bool.eq_false_iff.mpr fun hp => hawake hp op hstage⟩
  · rw [hwoken] at hstage
    simp at hstage

omit [DecidableEq ι] [DecidableEq χ] [Fintype ι] in
theorem any_rouse {f : Stage χ ω ρ → Bool} (hf : ∀ op, f (.asleep op) = false) {thread : ι}
    (h : (s.stages thread).any f = true) (p : ι → Bool) :
    ((s.rouse p).stages thread).any f = true := by
  rcases s.stages_rouse p thread with ⟨hsame, -⟩ | ⟨op, hslept, -, -⟩
  · rw [hsame]
    exact h
  · simp [hslept, hf op] at h

omit [DecidableEq ι] [Fintype ι] in
theorem Minded.rouse (h : m.Minded settled s) (p : ι → Bool) : m.Minded settled (s.rouse p) where
  all c thread hsleeps hsettled := by
    obtain ⟨other, hother⟩ := h.all c thread (sleepsOn_rouse hsleeps).1 hsettled
    exact ⟨other, any_rouse (fun _ => rfl) hother p⟩
  one c thread hsleeps hopens := by
    obtain ⟨other, hother⟩ := h.one c thread (sleepsOn_rouse hsleeps).1 hopens
    exact ⟨other, hother.imp (any_rouse (fun _ => rfl) · p) (any_rouse (fun _ => rfl) · p)⟩

theorem Stage.isToNotify_of_all {c : χ} {stage : Option (Stage χ ω ρ)}
    (h : stage.any (Stage.isToNotifyAll c) = true) : stage.any (Stage.isToNotify c) = true := by
  obtain ⟨stage, rfl, hall⟩ := (Option.any_eq_true _ _).mp h
  rcases stage with op | op | op | op | ⟨- | ⟨c', all⟩, result⟩ <;>
    simp_all [Stage.isToNotifyAll, Stage.isToNotify]

omit [Fintype ι] in
/-- Who takes a step while the others stay where they are, and who minds that they wake. -/
theorem Minded.comes (hm : m.Signals settled) (h : m.Minded settled s) {thread : ι}
    {stage : Option (Stage χ ω ρ)} {x : σ} {mutex : Option ι}
    (hsleeps : ∀ c, stage.any (Stage.sleepsOn m c) = true → m.opens c x = false)
    (hall : ∀ c, settled c x →
      settled c s.state ∧ (s.stages thread).any (Stage.isToNotifyAll c) = false ∨
        stage.any (Stage.isToNotifyAll c) = true)
    (hone : ∀ c, m.opens c x = true → settled c x ∨
      m.opens c s.state = true ∧ (s.stages thread).any (Stage.isToNotify c) = false ∧
          (s.stages thread).any (Stage.isAwakeFor m c) = false ∨
        stage.any (Stage.isToNotify c) = true ∨ stage.any (Stage.isAwakeFor m c) = true) :
    m.Minded settled { s.comes thread stage with state := x, mutex := mutex } := by
  have hself : (s.comes thread stage).stages thread = stage := s.stages_comes thread stage
  have hothers : ∀ other ≠ thread, (s.comes thread stage).stages other = s.stages other :=
    fun other hne => Threads.stages_comes_of_ne hne stage
  -- A thread that sleeps now through what is there slept before.
  have hslept : ∀ c other, (s.comes thread stage).sleepsOn m c other = true →
      m.opens c x = true → s.sleepsOn m c other = true := by
    intro c other hother hopens
    by_cases hne : other = thread
    · subst hne
      unfold Threads.sleepsOn at hother
      rw [hself] at hother
      rw [hsleeps c hother] at hopens
      exact absurd hopens Bool.false_ne_true
    · unfold Threads.sleepsOn at hother ⊢
      rwa [hothers other hne] at hother
  have hminds : ∀ c other, (s.comes thread stage).sleepsOn m c other = true → settled c x →
      ∃ other, ((s.comes thread stage).stages other).any (Stage.isToNotifyAll c) = true := by
    intro c other hother hsettled
    rcases hall c hsettled with ⟨hbefore, hnot⟩ | hnow
    · obtain ⟨witness, hwitness⟩ :=
        h.all c other (hslept c other hother (hm.opens_of_settled c x hsettled)) hbefore
      have hne : witness ≠ thread := by
        rintro rfl
        exact Bool.false_ne_true (hnot.symm.trans hwitness)
      exact ⟨witness, by rwa [hothers witness hne]⟩
    · exact ⟨thread, by rwa [hself]⟩
  refine ⟨hminds, fun c other hother hopens => ?_⟩
  rcases hone c hopens with hsettled | ⟨hbefore, hnot, hasleep⟩ | hnow
  · obtain ⟨witness, hwitness⟩ := hminds c other hother hsettled
    exact ⟨witness, .inl (Stage.isToNotify_of_all hwitness)⟩
  · obtain ⟨witness, hwitness⟩ := h.one c other (hslept c other hother hopens) hbefore
    have hne : witness ≠ thread := by
      rintro rfl
      simp [hnot, hasleep] at hwitness
    refine ⟨witness, ?_⟩
    show ((s.comes thread stage).stages witness).any _ = true ∨ _
    rwa [hothers witness hne]
  · refine ⟨thread, ?_⟩
    show ((s.comes thread stage).stages thread).any _ = true ∨ _
    rwa [hself]

omit [Fintype ι] in
theorem Minded.moved (hm : m.Signals settled) (hheld : m.Held s) (h : m.Minded settled s)
    (hmoved : m.Moved s s') : m.Minded settled s' := by
  cases hmoved with
  | same => exact h
  | enters thread op hstage =>
    refine h.comes hm (by simp [Stage.sleepsOn]) (fun c hsettled => .inl ⟨hsettled, ?_⟩)
      fun c hopens => .inr (.inl ⟨hopens, ?_, ?_⟩)
    all_goals rw [hstage]; rfl
  | locks thread op hstage hfree =>
    refine h.comes hm (by simp [Stage.sleepsOn]) (fun c hsettled => .inl ⟨hsettled, ?_⟩)
      fun c hopens => ?_
    · rw [hstage]
      rfl
    · rw [hstage]
      by_cases hwaits : m.waitsOn op = some c
      · simp [Stage.isAwakeFor, hwaits]
      · exact .inr (.inl ⟨hopens, rfl, by simp [Stage.isAwakeFor, hwaits]⟩)
  | passes thread op hstage hready =>
    refine h.comes hm (by simp [Stage.sleepsOn]) (fun c hsettled => .inl ⟨hsettled, ?_⟩)
      fun c hopens => ?_
    · rw [hstage]
      rfl
    · rw [hstage]
      by_cases hwaits : m.waitsOn op = some c
      · simp [Stage.isAwakeFor, hwaits]
      · exact .inr (.inl ⟨hopens, rfl, by simp [Stage.isAwakeFor, hwaits]⟩)
  | sleeps thread op hstage hready =>
    -- Nothing is there of what it goes to sleep for: it had the mutex as it looked.
    have hshut : ∀ c, m.waitsOn op = some c → m.opens c s.state = false := by
      intro c hwaits
      simpa [ready, hwaits] using hready
    refine h.comes hm (fun c hsleeps => hshut c (by simpa [Stage.sleepsOn] using hsleeps))
      (fun c hsettled => .inl ⟨hsettled, ?_⟩) fun c hopens => .inr (.inl ⟨hopens, ?_, ?_⟩)
    · rw [hstage]
      rfl
    · rw [hstage]
      rfl
    · have hwaits : m.waitsOn op ≠ some c := fun hwaits =>
        Bool.false_ne_true ((hshut c hwaits).symm.trans hopens)
      simp [hstage, Stage.isAwakeFor, hwaits]
  | does thread op hstage =>
    have hready : m.ready op s.state = true := by
      have hthread := hheld thread
      rw [hstage] at hthread
      exact hthread.2
    refine h.comes hm (by simp [Stage.sleepsOn]) (fun c hsettled => ?_) fun c hopens => ?_
    · rw [hstage]
      rcases hm.notifies_all op c _ hready hsettled with hbefore | hnotifies
      · exact .inl ⟨hbefore, rfl⟩
      · exact .inr (by simp [Stage.isToNotifyAll, hnotifies])
    · rw [hstage]
      rcases hm.notifies op c _ hready hopens with hsettled | ⟨all, hnotifies⟩ | ⟨hbefore, hwaits⟩
      · exact .inl hsettled
      · exact .inr (.inr (.inl (by simp [Stage.isToNotify, hnotifies])))
      · exact .inr (.inl ⟨hbefore, rfl, by simp [Stage.isAwakeFor, hwaits]⟩)
  | leaves thread notice result p hstage hall hone =>
    have hothers : ∀ other ≠ thread, (s.comes thread none).stages other = s.stages other :=
      fun other hne => Threads.stages_comes_of_ne hne none
    have hslept : ∀ c other, ((s.comes thread none).rouse p).sleepsOn m c other = true →
        s.sleepsOn m c other = true ∧ p other = false := by
      intro c other hsleeps
      obtain ⟨hbefore, hp⟩ := sleepsOn_rouse hsleeps
      refine ⟨?_, hp⟩
      have hne : other ≠ thread := by
        rintro rfl
        simp [Threads.sleepsOn, s.stages_comes] at hbefore
      unfold Threads.sleepsOn at hbefore ⊢
      rwa [hothers other hne] at hbefore
    refine ⟨fun c other hsleeps hsettled => ?_, fun c other hsleeps hopens => ?_⟩
    · obtain ⟨hbefore, hp⟩ := hslept c other hsleeps
      obtain ⟨witness, hwitness⟩ := h.all c other hbefore hsettled
      have hne : witness ≠ thread := by
        rintro rfl
        have hnotice : notice = some (c, true) := by
          rw [hstage] at hwitness
          rcases notice with - | ⟨c', all⟩
          · exact absurd hwitness Bool.false_ne_true
          · simpa [Stage.isToNotifyAll] using hwitness
        rw [hall c hnotice other hbefore] at hp
        exact Bool.false_ne_true hp.symm
      exact ⟨witness, any_rouse (fun _ => rfl) (by rwa [hothers witness hne]) p⟩
    · obtain ⟨hbefore, -⟩ := hslept c other hsleeps
      obtain ⟨witness, hwitness⟩ := h.one c other hbefore hopens
      by_cases hne : witness = thread
      · subst hne
        obtain ⟨all, hnotice⟩ : ∃ all, notice = some (c, all) := by
          rw [hstage] at hwitness
          rcases notice with - | ⟨c', all⟩
          · simp [Stage.isToNotify, Stage.isAwakeFor] at hwitness
          · exact ⟨all, by simpa [Stage.isToNotify, Stage.isAwakeFor] using hwitness⟩
        rcases hone c all hnotice with ⟨woken, hp, hwoken⟩ | hnobody
        · -- Whom it wakes is to see it.
          obtain ⟨op, hasleep, hwaits⟩ := sleepsOn_iff.mp hwoken
          have hne : woken ≠ witness := by
            rintro rfl
            simp [hstage] at hasleep
          refine ⟨woken, .inr ?_⟩
          have hentering : ((s.comes witness none).rouse p).stages woken = some (.entering op) := by
            show (if p woken then _ else _) = _
            rw [if_pos hp, hothers woken hne, hasleep]
            rfl
          rw [hentering]
          simpa [Stage.isAwakeFor] using hwaits
        · rw [hnobody other] at hbefore
          exact absurd hbefore Bool.false_ne_true
      · rw [← hothers witness hne] at hwitness
        exact ⟨witness, hwitness.imp (any_rouse (fun _ => rfl) · p) (any_rouse (fun _ => rfl) · p)⟩
  | wakes p => exact h.rouse p

theorem Minded.step (hm : m.Signals settled) (hheld : m.Held s) (h : m.Minded settled s)
    (e : Event ω ι) : m.Minded settled (m.step s e) :=
  h.moved hm hheld (moved_step m s e)

omit [DecidableEq ι] [Fintype ι] in
theorem minded_start (x : σ) : m.Minded settled ({ state := x } : Threads σ χ ω ρ ι) where
  all c thread hsleeps := by simp [Threads.sleepsOn] at hsleeps
  one c thread hsleeps := by simp [Threads.sleepsOn] at hsleeps

omit [DecidableEq ι] in
/-- Where a thread is awake, one of them can take a step. -/
theorem exists_moves (hheld : m.Held s) {thread : ι} {stage : Stage χ ω ρ}
    (h : s.stages thread = some stage) (hawake : ∀ op, stage ≠ .asleep op) :
    ∃ other chosen stage', s.stages other = some stage' ∧ s.moves m chosen stage' = true := by
  cases stage with
  | entering op =>
    cases hmutex : s.mutex with
    | none => exact ⟨thread, thread, _, h, by simp [Threads.moves, hmutex]⟩
    | some other =>
      have hother := hheld other
      simp only [hmutex] at hother
      cases hstage : s.stages other with
      | none => simp [hstage, MayBe] at hother
      | some stage =>
        cases stage with
        | inside | doing => exact ⟨other, other, _, hstage, rfl⟩
        | entering | asleep | leaving => simp [hstage, MayBe] at hother
  | inside | doing => exact ⟨thread, thread, _, h, rfl⟩
  | asleep op => exact absurd rfl (hawake op)
  | leaving notice result =>
    rcases notice with - | ⟨c, - | -⟩
    · exact ⟨thread, thread, _, h, rfl⟩
    · by_cases hsleeps : ∃ other, s.sleepsOn m c other = true
      · obtain ⟨other, hother⟩ := hsleeps
        exact ⟨thread, other, _, h, by simp [Threads.moves, hother]⟩
      · refine ⟨thread, thread, _, h, ?_⟩
        simpa [Threads.moves] using Or.inr hsleeps
    · exact ⟨thread, thread, _, h, rfl⟩

omit [DecidableEq ι] in
/-- **No wake-up is lost.** Where no thread can take a step, each that is in an operation sleeps,
and what it waits for is not there. -/
theorem shut_of_stuck (hheld : m.Held s) (h : m.Minded settled s)
    (hstuck : ∀ thread chosen stage, s.stages thread = some stage →
      s.moves m chosen stage = false) {thread : ι} {stage : Stage χ ω ρ}
    (hstage : s.stages thread = some stage) :
    ∃ op c, stage = .asleep op ∧ m.waitsOn op = some c ∧ m.opens c s.state = false := by
  have hasleep : ∀ other stage, s.stages other = some stage → ∃ op, stage = .asleep op := by
    intro other stage hstage
    by_contra hawake
    obtain ⟨other, chosen, stage', hstage', hmoves⟩ :=
      exists_moves hheld hstage fun op hop => hawake ⟨op, hop⟩
    rw [hstuck other chosen stage' hstage'] at hmoves
    exact Bool.false_ne_true hmoves
  obtain ⟨op, rfl⟩ := hasleep thread stage hstage
  obtain ⟨c, hwaits⟩ : ∃ c, m.waitsOn op = some c := by
    have hthread := hheld thread
    rw [hstage] at hthread
    exact hthread.2
  refine ⟨op, c, rfl, hwaits, Bool.eq_false_iff.mpr fun hopens => ?_⟩
  obtain ⟨other, hother⟩ := h.one c thread (sleepsOn_iff.mpr ⟨op, hstage, hwaits⟩) hopens
  cases hstage' : s.stages other with
  | none => simp [hstage'] at hother
  | some stage =>
    obtain ⟨op', rfl⟩ := hasleep other stage hstage'
    simp [hstage', Stage.isToNotify, Stage.isAwakeFor] at hother

end

/-! ### Who makes which calls -/

/-- The operation a thread has still to make. -/
def Stage.call : Stage χ ω ρ → Option ω
  | .entering op | .inside op | .doing op | .asleep op => some op
  | .leaving _ _ => none

/-- What each thread has still to make is for it to make. -/
def Calls (P : ι → ω → Prop) (s : Threads σ χ ω ρ ι) : Prop :=
  ∀ thread stage op, s.stages thread = some stage → stage.call = some op → P thread op

section

variable {m} {s s' : Threads σ χ ω ρ ι} {P : ι → ω → Prop}

omit [DecidableEq ι] [DecidableEq χ] [Fintype ι] in
theorem Calls.rouse (h : Calls P s) (p : ι → Bool) : Calls P (s.rouse p) := by
  intro thread stage op hstage hcall
  rcases s.stages_rouse p thread with ⟨hsame, -⟩ | ⟨other, hslept, -, hwoken⟩
  · exact h thread stage op (hsame.symm.trans hstage) hcall
  · obtain rfl := Option.some.inj (hwoken.symm.trans hstage)
    exact h thread _ op hslept hcall

omit [DecidableEq χ] [Fintype ι] in
theorem Calls.comes (h : Calls P s) {thread : ι} {stage : Option (Stage χ ω ρ)} {x : σ}
    {mutex : Option ι} (hcall : ∀ op, stage.bind Stage.call = some op → P thread op) :
    Calls P { s.comes thread stage with state := x, mutex := mutex } := by
  intro other stage' op hstage' hop
  by_cases hother : other = thread
  · subst hother
    obtain rfl : stage = some stage' := (s.stages_comes other stage).symm.trans hstage'
    exact hcall op hop
  · exact h other stage' op ((Threads.stages_comes_of_ne hother stage).symm.trans hstage') hop

omit [Fintype ι] in
/-- A step makes no call but the one that comes in. -/
theorem Calls.moved (h : Calls P s) (hmoved : m.Moved s s')
    (hnew : ∀ thread op, s.stages thread = none → s'.stages thread = some (.entering op) →
      P thread op) : Calls P s' := by
  cases hmoved with
  | same => exact h
  | enters thread op hstage =>
    refine h.comes fun op' hop => ?_
    obtain rfl : op = op' := Option.some.inj hop
    exact hnew thread op hstage (s.stages_comes thread _)
  | locks thread op hstage hfree => exact h.comes fun op' hop => h thread _ op' hstage hop
  | passes thread op hstage hready => exact h.comes fun op' hop => h thread _ op' hstage hop
  | sleeps thread op hstage hready => exact h.comes fun op' hop => h thread _ op' hstage hop
  | does thread op hstage => exact h.comes fun op' hop => by simp [Stage.call] at hop
  | leaves thread notice result p hstage hall hone =>
    have hleft : Calls P (s.comes thread none) := by
      refine h.comes fun op' hop => ?_
      simp at hop
    exact hleft.rouse p
  | wakes p => exact h.rouse p

theorem Calls.step (h : Calls P s) (e : Event ω ι)
    (he : ∀ thread op, e = .call thread op → P thread op) : Calls P (m.step s e) := by
  refine h.moved (moved_step m s e) fun thread op hidle hentering => ?_
  cases e with
  | call other op' =>
    simp only [Monitor.step] at hentering
    split_ifs at hentering with hother
    · by_cases hne : thread = other
      · subst hne
        rw [s.stages_comes] at hentering
        simp only [Option.some.injEq, Stage.entering.injEq] at hentering
        exact he thread op (by rw [hentering])
      · rw [Threads.stages_comes_of_ne hne, hidle] at hentering
        simp at hentering
    · simp [hidle] at hentering
  | go other chosen =>
    by_cases hne : thread = other
    · subst hne
      simp [Monitor.step, hidle] at hentering
    · rcases stages_go_of_ne (m := m) hne chosen with hsame | ⟨op', hslept, -⟩
      · rw [hsame, hidle] at hentering
        simp at hentering
      · simp [hidle] at hslept
  | wake other => simp [Monitor.step, Threads.rouse, hidle] at hentering

omit [DecidableEq ι] [DecidableEq χ] [Fintype ι] in
theorem Calls.effects (h : Calls P s) (e : Event ω ι) :
    ∀ made ∈ Monitor.effects s e, P made.1 made.2 := by
  intro made hmade
  cases e with
  | call | wake => simp [Monitor.effects] at hmade
  | go thread chosen =>
    simp only [Monitor.effects] at hmade
    cases hstage : s.stages thread with
    | none => simp [hstage] at hmade
    | some stage =>
      cases stage with
      | doing op =>
        obtain rfl : made = (thread, op) := by simpa [hstage, Stage.makes] using hmade
        exact h thread _ op hstage rfl
      | entering | inside | asleep | leaving => simp [hstage, Stage.makes] at hmade

end

/-! ### Steps come to an end -/

/-- What is left of an operation, where there are `n` threads: its own steps, and those of the
threads that it may wake. -/
def Stage.cost (n : ℕ) : Stage χ ω ρ → ℕ
  | .entering _ => 3 * n + 4
  | .inside _ => 3 * n + 3
  | .doing _ => 3 * n + 2
  | .asleep _ | .leaving _ _ => 3 * n + 1

namespace Threads

/-- What is left of the operation of a thread. -/
def left (s : Threads σ χ ω ρ ι) (thread : ι) : ℕ :=
  ((s.stages thread).map (Stage.cost (Fintype.card ι))).getD 0

def potential (s : Threads σ χ ω ρ ι) : ℕ := ∑ thread, s.left thread

/-- The thread that takes a step, where it is one. -/
def moved (s : Threads σ χ ω ρ ι) : Event ω ι → List ι
  | .go thread chosen => if (s.stages thread).any (s.moves m chosen) = true then [thread] else []
  | .call _ _ | .wake _ => []

end Threads

/-- What an event adds to what is left. -/
def Event.adds (n : ℕ) : Event ω ι → ℕ
  | .call _ _ => 3 * n + 4
  | .wake _ => 3
  | .go _ _ => 0

section

variable {m} {s : Threads σ χ ω ρ ι}

omit [DecidableEq χ] in
theorem potential_comes (s : Threads σ χ ω ρ ι) (thread : ι) (stage : Option (Stage χ ω ρ)) :
    (s.comes thread stage).potential + s.left thread =
      s.potential + (stage.map (Stage.cost (Fintype.card ι))).getD 0 := by
  have hself : (s.comes thread stage).left thread =
      (stage.map (Stage.cost (Fintype.card ι))).getD 0 := by
    unfold Threads.left
    rw [s.stages_comes]
  have hothers : ∑ other ∈ Finset.univ.erase thread, (s.comes thread stage).left other =
      ∑ other ∈ Finset.univ.erase thread, s.left other := by
    refine Finset.sum_congr rfl fun other hother => ?_
    unfold Threads.left
    rw [Threads.stages_comes_of_ne (Finset.ne_of_mem_erase hother)]
  unfold Threads.potential
  rw [← Finset.add_sum_erase _ _ (Finset.mem_univ thread), hself, hothers,
    ← Finset.add_sum_erase _ s.left (Finset.mem_univ thread)]
  omega

omit [DecidableEq ι] [DecidableEq χ] in
theorem potential_rouse (s : Threads σ χ ω ρ ι) (p : ι → Bool) :
    (s.rouse p).potential ≤ s.potential + ∑ thread, if p thread then 3 else 0 := by
  unfold Threads.potential
  rw [← Finset.sum_add_distrib]
  refine Finset.sum_le_sum fun thread _ => ?_
  unfold Threads.left
  rcases s.stages_rouse p thread with ⟨hsame, -⟩ | ⟨op, hslept, hp, hwoken⟩
  · rw [hsame]
    exact Nat.le_add_right _ _
  · rw [hwoken, hslept, if_pos hp]
    simp [Stage.cost]

omit [DecidableEq χ] in
theorem potential_leaves {thread : ι} {notice : Option (χ × Bool)} {result : ρ}
    (h : s.stages thread = some (.leaving notice result)) (p : ι → Bool) :
    ((s.comes thread none).rouse p).potential + 1 ≤ s.potential := by
  have hleft : s.left thread = 3 * Fintype.card ι + 1 := by simp [Threads.left, h, Stage.cost]
  have hcomes := potential_comes s thread none
  have hrouse := potential_rouse (s.comes thread none) p
  have hall : ∑ thread, (if p thread then 3 else 0) ≤ 3 * Fintype.card ι :=
    calc ∑ thread, (if p thread then 3 else 0) ≤ ∑ _thread : ι, 3 :=
          Finset.sum_le_sum fun other _ => by split_ifs <;> omega
      _ = 3 * Fintype.card ι := by rw [Finset.sum_const, Finset.card_univ, smul_eq_mul, mul_comm]
  simp only [Option.map_none, Option.getD_none] at hcomes
  omega

/-- Each step of a thread leaves less to do, whatever it wakes. -/
theorem potential_advance {thread : ι} {stage : Stage χ ω ρ} (h : s.stages thread = some stage)
    (chosen : ι) :
    (s.advance m thread chosen stage).potential +
      (if s.moves m chosen stage = true then 1 else 0) ≤ s.potential := by
  have hleft : s.left thread = stage.cost (Fintype.card ι) := by simp [Threads.left, h]
  have hcomes := fun stage => potential_comes s thread (some stage)
  simp only [hleft, Option.map_some, Option.getD_some] at hcomes
  cases stage with
  | entering op =>
    simp only [Threads.advance, Threads.moves, Option.isNone_iff_eq_none]
    split_ifs with hfree
    · have hthis := hcomes (.inside op)
      show (s.comes thread (some (.inside op))).potential + 1 ≤ s.potential
      simp only [Stage.cost] at hthis
      omega
    · exact le_rfl
  | inside op =>
    simp only [Threads.advance, Threads.moves]
    split_ifs
    · have hthis := hcomes (.doing op)
      simp only [Stage.cost] at hthis ⊢
      omega
    · have hthis := hcomes (.asleep op)
      show (s.comes thread (some (.asleep op))).potential + 1 ≤ s.potential
      simp only [Stage.cost] at hthis
      omega
  | doing op =>
    have hthis := hcomes (.leaving (m.notifies op s.state) (m.result op s.state))
    show (s.comes thread (some _)).potential + 1 ≤ s.potential
    simp only [Stage.cost] at hthis
    omega
  | asleep op => exact le_rfl
  | leaving notice result =>
    rcases notice with - | ⟨c, - | -⟩
    · have hnobody : s.comes thread none = (s.comes thread none).rouse fun _ => false := by
        simp [Threads.rouse]
      simp only [Threads.advance, Threads.notify]
      rw [hnobody]
      exact potential_leaves h _
    · simp only [Threads.advance, Threads.notify, Threads.moves, decide_eq_true_eq]
      split_ifs
      · exact potential_leaves h _
      · exact le_rfl
    · exact potential_leaves h _

theorem potential_step (s : Threads σ χ ω ρ ι) (e : Event ω ι) :
    (m.step s e).potential + (s.moved m e).length ≤ s.potential + e.adds (Fintype.card ι) := by
  cases e with
  | call thread op =>
    simp only [step, Threads.moved, Event.adds]
    split_ifs with hidle
    · have hcomes := potential_comes s thread (some (.entering op))
      simp only [Option.map_some, Option.getD_some, Stage.cost] at hcomes
      simp only [List.length_nil]
      omega
    · simp
  | wake thread =>
    have hrouse := potential_rouse s fun other => decide (other = thread)
    simpa [step, Threads.moved, Event.adds] using hrouse
  | go thread chosen =>
    simp only [step, Threads.moved, Event.adds]
    cases hstage : s.stages thread with
    | none => simp
    | some stage =>
      have hadvance := potential_advance (m := m) hstage chosen
      simp only [Option.map_some, Option.getD_some, Option.any_some, Nat.add_zero]
      split_ifs at hadvance ⊢ <;> simpa using hadvance

/-- **Steps come to an end.** The steps that the threads of a monitor take in a run are no more than
what its calls and its waits that end for no reason have them do. -/
theorem moved_add_potential_le (s : Threads σ χ ω ρ ι) (es : List (Event ω ι)) :
    (history m.step (Threads.moved m) s es).length + (run m.step s es).potential ≤
      s.potential + (es.map (Event.adds (Fintype.card ι))).sum :=
  (throughout_true s es).spends (I := fun _ => True) Threads.potential (fun _ _ _ _ => trivial)
    (fun s e _ _ => (Nat.add_comm ..).trans_le (potential_step s e)) trivial

end

end Monitor

end Machine
