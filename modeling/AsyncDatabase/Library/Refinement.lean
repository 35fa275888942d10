import AsyncDatabase.Library.Run

/-!
# A machine that does the work of another

The steps of a machine with threads and locks come to fewer steps of a plainer one: the taking of a
lock is nothing there, and the one step that writes is the whole call.

* `history`: what the steps of a run give, one after the other.
* `Throughout.simulates` and `Throughout.refines`: where each step is related to the steps it comes
  to, or seen above as them, so is a whole run.
* `refines_iff_throughout`: and a run is seen so all along only where each of its steps is.
* `Throughout.conserves`: where nothing is lost or made up at a step, nothing is in a whole run.
* `Throughout.spends`: where each step gives no more than it has to spend, so does a whole run, and
  `Throughout.keeps_to`: where each keeps to what is planned.
-/

namespace Machine

variable {σ ε τ β γ : Type*} {step : σ → ε → σ} {C : σ → ε → Prop} {I : σ → Prop}

/-- What the steps of a run give, in order. -/
def history (step : σ → ε → σ) (gives : σ → ε → List β) : σ → List ε → List β
  | _, [] => []
  | s, e :: es => gives s e ++ history step gives (step s e) es

@[simp] theorem history_nil (gives : σ → ε → List β) (s : σ) : history step gives s [] = [] := rfl

@[simp] theorem history_cons (gives : σ → ε → List β) (s : σ) (e : ε) (es : List ε) :
    history step gives s (e :: es) = gives s e ++ history step gives (step s e) es := rfl

/-- **The rule of simulation.** What relates each conforming step to the steps it comes to above
relates a whole run to the run of its history. -/
theorem Throughout.simulates (R : σ → τ → Prop) {upper : τ → β → τ} {effects : σ → ε → List β}
    (hstep : ∀ s e, I s → C s e → I (step s e))
    (hsim : ∀ s e t, I s → C s e → R s t → R (step s e) (run upper t (effects s e)))
    {s : σ} {t : τ} {es : List ε} (hs : I s) (hR : R s t) (h : Throughout step C s es) :
    R (run step s es) (run upper t (history step effects s es)) := by
  induction es generalizing s t with
  | nil => exact hR
  | cons e es ih =>
    rw [run_cons, history_cons, run_append]
    exact ih (hstep s e hs h.1) (hsim s e t hs h.1 hR) h.2

/-- **The refinement rule.** Where each step of a conforming run is seen above as a run of what it
comes to there, the whole run is seen as the run of its history. -/
theorem Throughout.refines (seen : σ → τ) {upper : τ → β → τ} {effects : σ → ε → List β}
    (hstep : ∀ s e, I s → C s e → I (step s e))
    (hsees : ∀ s e, I s → C s e → seen (step s e) = run upper (seen s) (effects s e))
    {s : σ} {es : List ε} (hs : I s) (h : Throughout step C s es) :
    seen (run step s es) = run upper (seen s) (history step effects s es) := by
  refine h.simulates (fun s t => seen s = t) hstep (fun s e t hs hC hR => ?_) hs rfl
  rw [← hR]
  exact hsees s e hs hC

/-- **When a run is seen as the run of its history.** It is so all along exactly where each of its
steps is seen as the steps it comes to. -/
theorem refines_iff_throughout (seen : σ → τ) {upper : τ → β → τ} {effects : σ → ε → List β}
    {s : σ} {es : List ε} :
    (∀ a b, es = a ++ b → seen (run step s a) = run upper (seen s) (history step effects s a)) ↔
      Throughout step (fun s e => seen (step s e) = run upper (seen s) (effects s e)) s es := by
  induction es generalizing s with
  | nil =>
    refine iff_of_true (fun a b hab => ?_) trivial
    rw [(List.append_eq_nil_iff.mp hab.symm).1]
    rfl
  | cons e es ih =>
    rw [throughout_cons, ← ih]
    constructor
    · intro h
      have hfirst := h [e] es rfl
      rw [run_cons, run_nil, history_cons, history_nil, List.append_nil] at hfirst
      refine ⟨hfirst, fun a b hab => ?_⟩
      have hrest := h (e :: a) b (by rw [hab, List.cons_append])
      rw [run_cons, history_cons, run_append, ← hfirst] at hrest
      exact hrest
    · rintro ⟨hfirst, h⟩ a b hab
      cases a with
      | nil => rfl
      | cons e' a =>
        obtain ⟨rfl, hrest⟩ := List.cons_eq_cons.mp hab
        rw [run_cons, history_cons, run_append, ← hfirst]
        exact h a b hrest

/-- **The rule of conservation.** What is held and what comes in is, at each step, what goes out and
what is held then, in this order: so it is along a conforming run. -/
theorem Throughout.conserves (holds : σ → List γ) {comes goes : σ → ε → List γ}
    (hstep : ∀ s e, I s → C s e → I (step s e))
    (hkeeps : ∀ s e, I s → C s e → holds s ++ comes s e = goes s e ++ holds (step s e))
    {s : σ} {es : List ε} (hs : I s) (h : Throughout step C s es) :
    holds s ++ history step comes s es = history step goes s es ++ holds (run step s es) := by
  induction es generalizing s with
  | nil => simp
  | cons e es ih =>
    calc holds s ++ history step comes s (e :: es)
        = (holds s ++ comes s e) ++ history step comes (step s e) es := by simp
      _ = goes s e ++ (holds (step s e) ++ history step comes (step s e) es) := by
        rw [hkeeps s e hs h.1, List.append_assoc]
      _ = history step goes s (e :: es) ++ holds (run step s (e :: es)) := by
        rw [ih (hstep s e hs h.1) h.2, history_cons, run_cons, List.append_assoc]

/-- **The rule of potential.** What each step gives is paid for out of what is left, and of what the
step adds to it: so is all that a conforming run gives. -/
theorem Throughout.spends (left : σ → ℕ) {gives : σ → ε → List β} {adds : ε → ℕ}
    (hstep : ∀ s e, I s → C s e → I (step s e))
    (hspends : ∀ s e, I s → C s e → (gives s e).length + left (step s e) ≤ left s + adds e)
    {s : σ} {es : List ε} (hs : I s) (h : Throughout step C s es) :
    (history step gives s es).length + left (run step s es) ≤ left s + (es.map adds).sum := by
  induction es generalizing s with
  | nil => simp
  | cons e es ih =>
    have hfirst := hspends s e hs h.1
    have hrest := ih (hstep s e hs h.1) h.2
    simp only [history_cons, List.length_append, run_cons, List.map_cons, List.sum_cons]
    omega

/-- Where no step adds anything, a conforming run gives no more than what was left. -/
theorem Throughout.spends_within (left : σ → ℕ) {gives : σ → ε → List β}
    (hstep : ∀ s e, I s → C s e → I (step s e))
    (hspends : ∀ s e, I s → C s e → (gives s e).length + left (step s e) ≤ left s)
    {s : σ} {es : List ε} (hs : I s) (h : Throughout step C s es) :
    (history step gives s es).length ≤ left s := by
  have hspent : _ ≤ left s + (es.map fun _ => 0).sum := h.spends left hstep hspends hs
  simp at hspent
  omega

/-- **The rule of plans.** Where each step gives what the plan has next, or passes it over, all that
a conforming run gives is in the plan, in its order. -/
theorem Throughout.keeps_to (plan : σ → List β) {gives : σ → ε → List β}
    (hstep : ∀ s e, I s → C s e → I (step s e))
    (hplan : ∀ s e, I s → C s e → (gives s e ++ plan (step s e)).Sublist (plan s))
    {s : σ} {es : List ε} (hs : I s) (h : Throughout step C s es) :
    (history step gives s es).Sublist (plan s) := by
  induction es generalizing s with
  | nil => exact List.nil_sublist _
  | cons e es ih =>
    have hrest := ih (hstep s e hs h.1) h.2
    exact (hrest.append_left (gives s e)).trans (hplan s e hs h.1)

end Machine
