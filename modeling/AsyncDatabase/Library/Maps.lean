import Mathlib.Tactic
import Std.Data.ExtTreeMap

/-!
# Folding over ordered maps

A loop over a map visits each key once. Where a step changes what the state says of the step's own
key and nothing of any other, what the loop leaves behind is said key by key: `look_foldl`.
-/

namespace Maps

variable {α β γ σ ι : Type*} [DecidableEq α]

/-- What a loop over items of distinct keys does to the look-up of one key. -/
theorem look_foldl_list (key : ι → α) (look : σ → α → γ) (step : σ → ι → σ) (g : ι → γ → γ)
    (l : List ι) (hown : ∀ s, ∀ p ∈ l, look (step s p) (key p) = g p (look s (key p)))
    (hother : ∀ s, ∀ p ∈ l, ∀ k, k ≠ key p → look (step s p) k = look s k) (s : σ)
    (hl : (l.map key).Nodup) (k : α) :
    look (l.foldl step s) k =
      match l.find? (key · = k) with
      | none => look s k
      | some p => g p (look s k) := by
  induction l generalizing s with
  | nil => rfl
  | cons p l ih =>
    rw [List.map_cons, List.nodup_cons] at hl
    have hp : p ∈ p :: l := List.mem_cons_self
    rw [List.foldl_cons, ih (fun s q hq => hown s q (List.mem_cons_of_mem _ hq))
      (fun s q hq => hother s q (List.mem_cons_of_mem _ hq)) (step s p) hl.2]
    by_cases hk : key p = k
    · -- the key is visited now and by no later turn
      have hrest : l.find? (key · = k) = none := by
        rw [List.find?_eq_none]
        intro q hq hqk
        have hqk : key q = k := by simpa using hqk
        exact hl.1 (List.mem_map.mpr ⟨q, hq, by rw [hqk, hk]⟩)
      subst hk
      rw [hrest, List.find?_cons_of_pos (by simp)]
      exact hown s p hp
    · rw [List.find?_cons_of_neg (by simpa using hk), hother s p hp k fun h => hk h.symm]

/-- The item of a key is the one that is found for it, where no two have one key. -/
theorem find?_key_eq_some {key : ι → α} {l : List ι} (hl : (l.map key).Nodup) {p : ι} (hp : p ∈ l) :
    l.find? (key · = key p) = some p := by
  induction l with
  | nil => cases hp
  | cons q l ih =>
    rw [List.map_cons, List.nodup_cons] at hl
    rcases List.mem_cons.mp hp with rfl | hp
    · exact List.find?_cons_of_pos (by simp)
    · have hne : key q ≠ key p := fun h => hl.1 (List.mem_map.mpr ⟨p, hp, h.symm⟩)
      rw [List.find?_cons_of_neg (by simpa using hne), ih hl.2 hp]

variable {cmp : α → α → Ordering} [Std.TransCmp cmp] [Std.LawfulEqCmp cmp]

omit [DecidableEq α] in
theorem nodup_keys_toList (m : Std.ExtTreeMap α β cmp) : (m.toList.map Prod.fst).Nodup := by
  rw [List.nodup_iff_pairwise_ne, List.pairwise_map]
  refine m.distinct_keys_toList.imp fun {p q} h heq => h ?_
  rw [heq]
  exact Std.ReflCmp.compare_self

omit [DecidableEq α] in
theorem mem_keys_toList_iff (m : Std.ExtTreeMap α β cmp) (k : α) :
    k ∈ m.toList.map Prod.fst ↔ k ∈ m := by
  rw [← Std.ExtTreeMap.isSome_getElem?_iff_mem, Option.isSome_iff_exists, List.mem_map]
  simp [Std.ExtTreeMap.mem_toList_iff_getElem?_eq_some]

theorem find?_toList (m : Std.ExtTreeMap α β cmp) (k : α) :
    m.toList.find? (·.1 = k) = m[k]?.map (k, ·) := by
  cases hf : m.toList.find? (·.1 = k) with
  | some p =>
    have hk : p.1 = k := by simpa using List.find?_some hf
    have hp : p ∈ m.toList := List.mem_of_find?_eq_some hf
    obtain ⟨k', v⟩ := p
    obtain rfl : k' = k := hk
    rw [Std.ExtTreeMap.mem_toList_iff_getElem?_eq_some.mp hp]
    rfl
  | none =>
    cases hv : m[k]? with
    | none => rfl
    | some v =>
      have hp := Std.ExtTreeMap.mem_toList_iff_getElem?_eq_some.mpr hv
      have hne : ¬(k = k) := by simpa only [decide_eq_true_iff] using List.find?_eq_none.mp hf _ hp
      exact absurd rfl hne

/-- **A loop over a map, key by key.** -/
theorem look_foldl (look : σ → α → γ) (step : σ → α × β → σ) (g : α → β → γ → γ)
    (m : Std.ExtTreeMap α β cmp)
    (hown : ∀ s k v, m[k]? = some v → look (step s (k, v)) k = g k v (look s k))
    (hother : ∀ s k v k', m[k]? = some v → k' ≠ k → look (step s (k, v)) k' = look s k') (s : σ)
    (k : α) :
    look (m.toList.foldl step s) k =
      match m[k]? with
      | none => look s k
      | some v => g k v (look s k) := by
  rw [look_foldl_list Prod.fst look step (fun p => g p.1 p.2) m.toList ?_ ?_ s
    (nodup_keys_toList m) k, find?_toList]
  · cases m[k]? <;> rfl
  · rintro s ⟨k, v⟩ hp
    exact hown s k v (Std.ExtTreeMap.mem_toList_iff_getElem?_eq_some.mp hp)
  · rintro s ⟨k, v⟩ hp k' hk'
    exact hother s k v k' (Std.ExtTreeMap.mem_toList_iff_getElem?_eq_some.mp hp) hk'

end Maps
