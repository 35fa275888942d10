import Mathlib.Tactic

/-!
# Runs of a deterministic machine

A machine is a step function `σ → ε → σ`: whatever the surroundings choose (which request arrives,
which call fails, who answers) is part of the event, so a run is a list of events.

* `run`: where a list of events leads.
* `Throughout`: a condition on each state and the event taken in it, along a whole run.
* `Always`: a property of every state of a run.

The rules are `Throughout.invariant` (a step lemma gives a run lemma), `Throughout.always` and
`throughout_congr` (two conditions that agree wherever an invariant stands agree along runs).
-/

namespace Machine

variable {σ ε : Type*} {step : σ → ε → σ}

/-- The state a list of events leads to. -/
def run (step : σ → ε → σ) (s : σ) (es : List ε) : σ := es.foldl step s

/-- `C` holds of every state of the run together with the event taken in it. -/
def Throughout (step : σ → ε → σ) (C : σ → ε → Prop) : σ → List ε → Prop
  | _, [] => True
  | s, e :: es => C s e ∧ Throughout step C (step s e) es

/-- `P` holds in every state of the run, the first and the last included. -/
def Always (step : σ → ε → σ) (P : σ → Prop) : σ → List ε → Prop
  | s, [] => P s
  | s, e :: es => P s ∧ Always step P (step s e) es

instance decidableAlways (step : σ → ε → σ) (P : σ → Prop) [DecidablePred P] :
    ∀ (s : σ) (es : List ε), Decidable (Always step P s es)
  | s, [] => inferInstanceAs (Decidable (P s))
  | s, e :: es =>
    have := decidableAlways step P (step s e) es
    inferInstanceAs (Decidable (P s ∧ Always step P (step s e) es))

instance decidableThroughout (step : σ → ε → σ) (C : σ → ε → Prop) [∀ s, DecidablePred (C s)] :
    ∀ (s : σ) (es : List ε), Decidable (Throughout step C s es)
  | _, [] => inferInstanceAs (Decidable True)
  | s, e :: es =>
    have := decidableThroughout step C (step s e) es
    inferInstanceAs (Decidable (C s e ∧ Throughout step C (step s e) es))

@[simp] theorem run_nil (s : σ) : run step s [] = s := rfl

@[simp] theorem run_cons (s : σ) (e : ε) (es : List ε) :
    run step s (e :: es) = run step (step s e) es := rfl

theorem run_append (s : σ) (a b : List ε) : run step s (a ++ b) = run step (run step s a) b :=
  List.foldl_append

@[simp] theorem throughout_nil (C : σ → ε → Prop) (s : σ) : Throughout step C s [] := trivial

@[simp] theorem throughout_cons (C : σ → ε → Prop) (s : σ) (e : ε) (es : List ε) :
    Throughout step C s (e :: es) ↔ C s e ∧ Throughout step C (step s e) es := Iff.rfl

theorem throughout_true (s : σ) (es : List ε) : Throughout step (fun _ _ => True) s es := by
  induction es generalizing s with
  | nil => trivial
  | cons e es ih => exact ⟨trivial, ih _⟩

theorem throughout_of_forall {P : ε → Prop} {es : List ε} (h : ∀ e ∈ es, P e) (s : σ) :
    Throughout step (fun _ e => P e) s es := by
  induction es generalizing s with
  | nil => trivial
  | cons e es ih => exact ⟨h e List.mem_cons_self, ih (fun other hother => h other
      (List.mem_cons_of_mem e hother)) _⟩

theorem throughout_append (C : σ → ε → Prop) (s : σ) (a b : List ε) :
    Throughout step C s (a ++ b) ↔ Throughout step C s a ∧ Throughout step C (run step s a) b := by
  induction a generalizing s with
  | nil => simp
  | cons e a ih => simp only [List.cons_append, throughout_cons, run_cons, ih, and_assoc]

/-- A condition stands throughout a run exactly if it stands wherever the run takes an event. -/
theorem throughout_iff {C : σ → ε → Prop} {s : σ} {es : List ε} : Throughout step C s es ↔
    ∀ a e b, es = a ++ e :: b → C (run step s a) e := by
  constructor
  · rintro h a e b rfl
    exact ((throughout_append C s a (e :: b)).mp h).2.1
  · intro h
    induction es generalizing s with
    | nil => trivial
    | cons e es ih =>
      exact ⟨h [] e es rfl, ih fun a other b hab => h (e :: a) other b (by rw [hab]; rfl)⟩

theorem Throughout.and {C Q : σ → ε → Prop} {s : σ} {es : List ε} (h : Throughout step C s es)
    (h' : Throughout step Q s es) : Throughout step (fun s e => C s e ∧ Q s e) s es := by
  induction es generalizing s with
  | nil => trivial
  | cons e es ih => exact ⟨⟨h.1, h'.1⟩, ih h.2 h'.2⟩

/-! ### Invariants -/

/-- **The invariant rule.** What the start satisfies and every conforming step keeps, the end of a
conforming run satisfies. -/
theorem Throughout.invariant {C : σ → ε → Prop} {I : σ → Prop}
    (hstep : ∀ s e, I s → C s e → I (step s e)) {s : σ} {es : List ε} (hs : I s)
    (h : Throughout step C s es) : I (run step s es) := by
  induction es generalizing s with
  | nil => exact hs
  | cons e es ih => exact ih (hstep s e hs h.1) h.2

/-- The invariant rule for every state on the way. -/
theorem Throughout.always {C : σ → ε → Prop} {I : σ → Prop}
    (hstep : ∀ s e, I s → C s e → I (step s e)) {s : σ} {es : List ε} (hs : I s)
    (h : Throughout step C s es) : Always step I s es := by
  induction es generalizing s with
  | nil => exact hs
  | cons e es ih => exact ⟨hs, ih (hstep s e hs h.1) h.2⟩

/-- What follows from an invariant at one step follows at every step of a conforming run. -/
theorem Throughout.imp {C Q : σ → ε → Prop} {I : σ → Prop}
    (hstep : ∀ s e, I s → C s e → I (step s e)) (hQ : ∀ s e, I s → C s e → Q s e)
    {s : σ} {es : List ε} (hs : I s) (h : Throughout step C s es) : Throughout step Q s es := by
  induction es generalizing s with
  | nil => trivial
  | cons e es ih => exact ⟨hQ s e hs h.1, ih (hstep s e hs h.1) h.2⟩

/-- Two conditions that agree wherever an invariant stands agree along whole runs. -/
theorem throughout_congr {C Q : σ → ε → Prop} {I : σ → Prop}
    (hstep : ∀ s e, I s → C s e → I (step s e)) (hCQ : ∀ s e, I s → (C s e ↔ Q s e))
    {s : σ} {es : List ε} (hs : I s) : Throughout step C s es ↔ Throughout step Q s es := by
  induction es generalizing s with
  | nil => simp
  | cons e es ih =>
    rw [throughout_cons, throughout_cons, ← hCQ s e hs]
    exact and_congr_right fun hC => ih (hstep s e hs hC)

theorem Always.mono {P Q : σ → Prop} (hPQ : ∀ s, P s → Q s) {s : σ} {es : List ε}
    (h : Always step P s es) : Always step Q s es := by
  induction es generalizing s with
  | nil => exact hPQ s h
  | cons e es ih => exact ⟨hPQ s h.1, ih h.2⟩

theorem Always.and {P Q : σ → Prop} {s : σ} {es : List ε} (hP : Always step P s es)
    (hQ : Always step Q s es) : Always step (fun s => P s ∧ Q s) s es := by
  induction es generalizing s with
  | nil => exact ⟨hP, hQ⟩
  | cons e es ih => exact ⟨⟨hP.1, hQ.1⟩, ih hP.2 hQ.2⟩

theorem Always.first {P : σ → Prop} {s : σ} {es : List ε} (h : Always step P s es) : P s := by
  cases es with
  | nil => exact h
  | cons e es => exact h.1

/-- The states of a run are the ends of its prefixes. -/
theorem always_iff {P : σ → Prop} {s : σ} {es : List ε} :
    Always step P s es ↔ ∀ a b, es = a ++ b → P (run step s a) := by
  induction es generalizing s with
  | nil =>
    constructor
    · intro h a b hab
      obtain ⟨rfl, rfl⟩ := List.append_eq_nil_iff.mp hab.symm
      exact h
    · intro h
      exact h [] [] rfl
  | cons e es ih =>
    constructor
    · rintro ⟨h0, h⟩ a b hab
      cases a with
      | nil => exact h0
      | cons e' a =>
        obtain ⟨rfl, rfl⟩ := List.cons_eq_cons.mp hab
        exact ih.mp h a b rfl
    · intro h
      exact ⟨h [] (e :: es) rfl, ih.mpr fun a b hab => h (e :: a) b (by rw [hab]; rfl)⟩

/-- The invariant rule for every state on the way, where `Q` is known of every state. -/
theorem always_of_throughout {Q I : σ → Prop} {C : σ → ε → Prop}
    (hkeep : ∀ s e, I s → Q (step s e) → C s e → I (step s e)) {s : σ} {es : List ε} (hs : I s)
    (hQ : Always step Q s es) (h : Throughout step C s es) : Always step I s es := by
  induction es generalizing s with
  | nil => exact hs
  | cons e es ih => exact ⟨hs, ih (hkeep s e hs hQ.2.first h.1) hQ.2 h.2⟩

/-- **When a property of states is a condition on steps.** An invariant that gives `P`, that a step
keeps where `C` holds of it, and after which `P` fails where `C` does not: then `P` holds in every
state of a run exactly if `C` holds at every step of it. `Q` is what is known of every state. -/
theorem always_iff_throughout {P Q I : σ → Prop} {C : σ → ε → Prop} (hIP : ∀ s, I s → P s)
    (hkeep : ∀ s e, I s → Q (step s e) → C s e → I (step s e))
    (hbreak : ∀ s e, I s → Q (step s e) → P (step s e) → C s e) {s : σ} {es : List ε} (hs : I s)
    (hQ : Always step Q s es) : Always step P s es ↔ Throughout step C s es := by
  refine ⟨fun hP => ?_, fun hC => Always.mono hIP (always_of_throughout hkeep hs hQ hC)⟩
  induction es generalizing s with
  | nil => trivial
  | cons e es ih =>
    have hC := hbreak s e hs hQ.2.first hP.2.first
    exact ⟨hC, ih (hkeep s e hs hQ.2.first hC) hQ.2 hP.2⟩

theorem Always.last {P : σ → Prop} {s : σ} {es : List ε} (h : Always step P s es) :
    P (run step s es) :=
  always_iff.mp h es [] (List.append_nil es).symm

end Machine
