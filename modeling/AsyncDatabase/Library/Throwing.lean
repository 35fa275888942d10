import Mathlib.Tactic

/-!
# Programs that throw and keep what they did

`EStateM ε σ α` is a program on a state `σ` that answers or throws, and what it did before it threw
stands. `Throwing.after` is the state such a program leaves behind either way.

* the `run` lemmas unfold a program a statement at a time;
* `Keeps I x` says that `x` keeps `I` whether it answers or throws, with a rule for each way a
  program is put together.
-/

namespace Throwing

universe u

variable {ε σ α β : Type u}

/-- The state a program leaves behind, whether it answered or threw. -/
def after : EStateM.Result ε σ α → σ
  | .ok _ s => s
  | .error _ s => s

/-- Whether a program threw. -/
def threw : EStateM.Result ε σ α → Bool
  | .ok .. => false
  | .error .. => true

@[simp] theorem after_ok (a : α) (s : σ) : after (.ok a s : EStateM.Result ε σ α) = s := rfl

@[simp] theorem after_error (e : ε) (s : σ) : after (.error e s : EStateM.Result ε σ α) = s := rfl

@[simp] theorem threw_ok (a : α) (s : σ) : threw (.ok a s : EStateM.Result ε σ α) = false := rfl

@[simp] theorem threw_error (e : ε) (s : σ) : threw (.error e s : EStateM.Result ε σ α) = true :=
  rfl

/-! ### Running a program a statement at a time -/

theorem run_bind (x : EStateM ε σ α) (f : α → EStateM ε σ β) (s : σ) :
    (x >>= f) s = match x s with
      | .ok a s' => f a s'
      | .error e s' => .error e s' := rfl

@[simp] theorem run_bind_get (f : σ → EStateM ε σ β) (s : σ) :
    ((get : EStateM ε σ σ) >>= f) s = f s s := rfl

@[simp] theorem run_bind_set (s' : σ) (f : PUnit → EStateM ε σ β) (s : σ) :
    ((set s' : EStateM ε σ PUnit) >>= f) s = f ⟨⟩ s' := rfl

@[simp] theorem run_bind_modify (g : σ → σ) (f : PUnit → EStateM ε σ β) (s : σ) :
    ((modify g : EStateM ε σ PUnit) >>= f) s = f ⟨⟩ (g s) := rfl

@[simp] theorem run_bind_pure (a : α) (f : α → EStateM ε σ β) (s : σ) :
    ((pure a : EStateM ε σ α) >>= f) s = f a s := rfl

@[simp] theorem run_pure (a : α) (s : σ) : (pure a : EStateM ε σ α) s = .ok a s := rfl

@[simp] theorem run_set (s' s : σ) : (set s' : EStateM ε σ PUnit) s = .ok ⟨⟩ s' := rfl

@[simp] theorem run_modify (g : σ → σ) (s : σ) :
    (modify g : EStateM ε σ PUnit) s = .ok ⟨⟩ (g s) := rfl

@[simp] theorem run_throw (e : ε) (s : σ) : (throw e : EStateM ε σ α) s = .error e s := rfl

theorem run_forM_cons (a : α) (l : List α) (f : α → EStateM ε σ PUnit) (s : σ) :
    ((a :: l).forM f : EStateM ε σ PUnit) s = match f a s with
      | .ok _ s' => (l.forM f : EStateM ε σ PUnit) s'
      | .error e s' => .error e s' := by
  simp only [List.forM_eq_forM, List.forM_cons, run_bind]
  cases f a s <;> rfl

/-! ### What a program keeps -/

/-- The program keeps `I` whether it answers or throws. -/
def Keeps (I : σ → Prop) (x : EStateM ε σ α) : Prop := ∀ s, I s → I (after (x s))

variable {I : σ → Prop}

theorem keeps_pure (a : α) : Keeps I (pure a : EStateM ε σ α) := fun _ h => h

theorem keeps_throw (e : ε) : Keeps I (throw e : EStateM ε σ α) := fun _ h => h

theorem Keeps.bind {x : EStateM ε σ α} {f : α → EStateM ε σ β} (hx : Keeps I x)
    (hf : ∀ a, Keeps I (f a)) : Keeps I (x >>= f) := by
  intro s hs
  have hmid := hx s hs
  rw [run_bind]
  cases hrun : x s with
  | ok a s' =>
    rw [hrun] at hmid
    exact hf a s' hmid
  | error e s' =>
    rw [hrun] at hmid
    exact hmid

theorem Keeps.get_bind {f : σ → EStateM ε σ β} (hf : ∀ s, I s → I (after (f s s))) :
    Keeps I ((get : EStateM ε σ σ) >>= f) := fun s hs => hf s hs

theorem Keeps.ite {c : Prop} [Decidable c] {x y : EStateM ε σ α} (hx : Keeps I x)
    (hy : Keeps I y) : Keeps I (if c then x else y) := by
  split_ifs
  · exact hx
  · exact hy

theorem Keeps.forM {l : List α} {f : α → EStateM ε σ PUnit} (hf : ∀ a ∈ l, Keeps I (f a)) :
    Keeps I (l.forM f) := by
  induction l with
  | nil => exact keeps_pure _
  | cons a l ih =>
    exact Keeps.bind (hf a List.mem_cons_self) fun _ => ih fun b hb =>
      hf b (List.mem_cons_of_mem _ hb)

/-! ### What a program throws -/

/-- Whatever the program throws is such an error. -/
def ThrowsOnly (P : ε → Prop) (x : EStateM ε σ α) : Prop := ∀ s e s', x s = .error e s' → P e

variable {P : ε → Prop}

theorem throwsOnly_of_ok {x : EStateM ε σ α} (h : ∀ s, ∃ a s', x s = .ok a s') :
    ThrowsOnly P x := by
  intro s e s' hx
  obtain ⟨a, t, hok⟩ := h s
  rw [hok] at hx
  cases hx

theorem throwsOnly_pure (a : α) : ThrowsOnly P (pure a : EStateM ε σ α) :=
  throwsOnly_of_ok fun s => ⟨a, s, rfl⟩

theorem throwsOnly_modify (g : σ → σ) : ThrowsOnly P (modify g : EStateM ε σ PUnit) :=
  throwsOnly_of_ok fun s => ⟨⟨⟩, g s, rfl⟩

theorem throwsOnly_set (t : σ) : ThrowsOnly P (set t : EStateM ε σ PUnit) :=
  throwsOnly_of_ok fun _ => ⟨⟨⟩, t, rfl⟩

theorem throwsOnly_get : ThrowsOnly P (get : EStateM ε σ σ) :=
  throwsOnly_of_ok fun s => ⟨s, s, rfl⟩

theorem ThrowsOnly.bind {x : EStateM ε σ α} {f : α → EStateM ε σ β} (hx : ThrowsOnly P x)
    (hf : ∀ a, ThrowsOnly P (f a)) : ThrowsOnly P (x >>= f) := by
  intro s e s' h
  rw [run_bind] at h
  cases hrun : x s with
  | ok a t =>
    rw [hrun] at h
    exact hf a t e s' h
  | error e' t =>
    rw [hrun] at h
    cases h
    exact hx s e s' hrun

theorem ThrowsOnly.ite {c : Prop} [Decidable c] {x y : EStateM ε σ α} (hx : ThrowsOnly P x)
    (hy : ThrowsOnly P y) : ThrowsOnly P (if c then x else y) := by
  split_ifs
  · exact hx
  · exact hy

end Throwing
