import AsyncDatabase.Library.JsonText
import AsyncDatabase.Registering

/-!
# Leases and the keys written on them

A node that holds a lease keeps it alive and registers no more (`refresh` of
`cluster/etcd_cluster.cpp`), whether or not the put of `register_node` was carried out.
`registered_iff` says when each node with a lease has its key on it, and `left_out_for_good` that
one that has not is left out of the cluster for as long as it keeps that lease.
-/

namespace AsyncDatabase

open Bytes (ascii)
open Machine

variable {J : JsonCodec} {c : RegisterConfig} {r after : Registry} {node : Registrant}

/-! ### Leases, and what is written on them -/

/-- What is known of the leases that were granted, the puts that were sent and the keys these
wrote. -/
structure Registry.Accounted (J : JsonCodec) (c : RegisterConfig) (r : Registry) : Prop where
  zero : 0 ∉ r.granted
  live : ∀ lease ∈ r.live, lease ∈ r.granted
  sent : ∀ (request : ℕ) (sent : PutRequest), r.puts[request]? = some sent → sent.lease ∈ r.granted
  /-- No two puts are on one lease. -/
  distinct : ∀ (request other : ℕ) (sent sent' : PutRequest), r.puts[request]? = some sent →
    r.puts[other]? = some sent' → sent.lease = sent'.lease → request = other
  /-- The put that wrote a node's key last stands in it as long as its lease does. -/
  wrote : ∀ n request, r.written n = some request → ∃ sent, r.puts[request]? = some sent ∧
    (sent.lease ∈ r.live → r.keys[c.path n]? = some ⟨c.value J n, sent.lease⟩)
  /-- And what stands in a node's key is of that put. -/
  writer : ∀ n key, r.keys[c.path n]? = some key → ∃ request sent, r.written n = some request ∧
    r.puts[request]? = some sent ∧ sent.lease = key.lease

namespace Registry

/-- The put that carries out is marked, and every other is as it was. -/
theorem getElem?_set_done {puts : List PutRequest} {request i : ℕ} {sent now : PutRequest}
    (hsent : puts[request]? = some sent)
    (hnow : (puts.set request { sent with done := true })[i]? = some now) :
    ∃ before, puts[i]? = some before ∧ before.lease = now.lease ∧ before.node = now.node := by
  rw [List.getElem?_set] at hnow
  split_ifs at hnow with hsame hlt
  · subst hsame
    obtain rfl := Option.some.inj hnow
    exact ⟨sent, hsent, rfl, rfl⟩
  · exact ⟨now, hnow, rfl, rfl⟩

theorem getElem?_set_done_of {puts : List PutRequest} {request i : ℕ} {sent before : PutRequest}
    (hsent : puts[request]? = some sent) (hbefore : puts[i]? = some before) :
    ∃ now, (puts.set request { sent with done := true })[i]? = some now ∧
      now.lease = before.lease ∧ now.node = before.node := by
  rw [List.getElem?_set]
  have hlt : request < puts.length := (List.getElem?_eq_some_iff.mp hsent).1
  by_cases hsame : request = i
  · subst hsame
    rw [if_pos rfl, if_pos hlt]
    obtain rfl := Option.some.inj (hsent.symm.trans hbefore)
    exact ⟨_, rfl, rfl, rfl⟩
  · rw [if_neg hsame]
    exact ⟨before, hbefore, rfl, rfl⟩

theorem keys_lapse {lease : ℤ} {path : Bytes} {key : NodeKey} :
    (r.lapse lease).keys[path]? = some key ↔ r.keys[path]? = some key ∧ key.lease ≠ lease := by
  show (r.keys.filter _)[path]? = some key ↔ _
  rw [Std.ExtTreeMap.getElem?_filter', Option.filter_eq_some_iff]
  simp

theorem mem_live_lapse {lease other : ℤ} :
    other ∈ (r.lapse lease).live ↔ other ∈ r.live ∧ other ≠ lease := by
  show other ∈ r.live.filter _ ↔ _
  rw [List.mem_filter]
  simp

/-- A put whose lease has not run out is carried out. -/
theorem put_eq {request : ℕ} {sent : PutRequest} (hsent : r.puts[request]? = some sent)
    (hlive : sent.lease ∈ r.live) : r.put J c request =
      { r with
        revision := r.revision + 1
        keys := r.keys.insert (c.path sent.node) ⟨c.value J sent.node, sent.lease⟩
        puts := r.puts.set request { sent with done := true }
        written := Function.update r.written sent.node (some request) } := by
  unfold Registry.put
  rw [hsent]
  exact if_pos hlive

/-- What a put does, where it does anything. -/
theorem put_cases (J : JsonCodec) (c : RegisterConfig) (r : Registry) (request : ℕ) :
    r.put J c request = r ∨ ∃ sent, r.puts[request]? = some sent ∧ sent.lease ∈ r.live ∧
      r.put J c request =
        { r with
          revision := r.revision + 1
          keys := r.keys.insert (c.path sent.node) ⟨c.value J sent.node, sent.lease⟩
          puts := r.puts.set request { sent with done := true }
          written := Function.update r.written sent.node (some request) } := by
  cases hsent : r.puts[request]? with
  | none =>
    left
    unfold Registry.put
    rw [hsent]
  | some sent =>
    by_cases hlive : sent.lease ∈ r.live
    · exact Or.inr ⟨sent, rfl, hlive, put_eq hsent hlive⟩
    · left
      unfold Registry.put
      rw [hsent]
      exact if_neg hlive

theorem getElem?_insert_path {m n : Bytes} {key : NodeKey} :
    (r.keys.insert (c.path m) key)[c.path n]? = if m = n then some key else r.keys[c.path n]? := by
  rw [Std.ExtTreeMap.getElem?_insert]
  by_cases hsame : m = n
  · subst hsame
    rw [if_pos rfl, if_pos (by simp)]
  · rw [if_neg hsame, if_neg]
    intro hpath
    exact hsame (path_inj (by simpa using hpath))

theorem Accounted.lapse (h : r.Accounted J c) (lease : ℤ) : (r.lapse lease).Accounted J c where
  zero := h.zero
  live other hother := h.live other (mem_live_lapse.mp hother).1
  sent := h.sent
  distinct := h.distinct
  wrote n request hwritten := by
    obtain ⟨sent, hsent, hkey⟩ := h.wrote n request hwritten
    refine ⟨sent, hsent, fun hlive => keys_lapse.mpr ?_⟩
    obtain ⟨hlive, hne⟩ := mem_live_lapse.mp hlive
    exact ⟨hkey hlive, hne⟩
  writer n key hkey := h.writer n key (keys_lapse.mp hkey).1

theorem Accounted.put (h : r.Accounted J c) (request : ℕ) : (r.put J c request).Accounted J c := by
  rcases put_cases J c r request with hsame | ⟨sent, hsent, hlive, hput⟩
  · rw [hsame]
    exact h
  · rw [hput]
    refine ⟨h.zero, h.live, fun i now hnow => ?_, fun i j now other hnow hother hlease => ?_,
      fun n i hwritten => ?_, fun n key hkey => ?_⟩
    · obtain ⟨before, hbefore, hlease, -⟩ := getElem?_set_done hsent hnow
      exact hlease ▸ h.sent i before hbefore
    · obtain ⟨before, hbefore, hsame, -⟩ := getElem?_set_done hsent hnow
      obtain ⟨before', hbefore', hsame', -⟩ := getElem?_set_done hsent hother
      exact h.distinct i j before before' hbefore hbefore' (by rw [hsame, hsame', hlease])
    · -- the key of the put's own node is what it wrote, and no other node's has changed
      show ∃ now, _ ∧ (_ → (r.keys.insert _ _)[c.path n]? = _)
      have hwritten' : Function.update r.written sent.node (some request) n = some i := hwritten
      rw [getElem?_insert_path]
      by_cases hnode : sent.node = n
      · subst hnode
        rw [Function.update_self] at hwritten'
        obtain rfl := Option.some.inj hwritten'
        obtain ⟨now, hnow, hlease, -⟩ := getElem?_set_done_of hsent hsent
        refine ⟨now, hnow, fun _ => ?_⟩
        rw [if_pos rfl, hlease]
      · rw [Function.update_of_ne (Ne.symm hnode)] at hwritten'
        obtain ⟨before, hbefore, hkey⟩ := h.wrote n i hwritten'
        obtain ⟨now, hnow, hlease, -⟩ := getElem?_set_done_of hsent hbefore
        refine ⟨now, hnow, fun hnowlive => ?_⟩
        rw [if_neg hnode, hlease]
        exact hkey (hlease ▸ hnowlive)
    · have hkey' : (r.keys.insert (c.path sent.node) ⟨c.value J sent.node, sent.lease⟩)[c.path n]? =
          some key := hkey
      show ∃ i now, Function.update r.written sent.node (some request) n = some i ∧ _
      rw [getElem?_insert_path] at hkey'
      split_ifs at hkey' with hnode
      · subst hnode
        obtain rfl := Option.some.inj hkey'
        obtain ⟨now, hnow, hlease, -⟩ := getElem?_set_done_of hsent hsent
        exact ⟨request, now, Function.update_self _ _ _, hnow, hlease⟩
      · obtain ⟨i, before, hwritten, hbefore, hlease⟩ := h.writer n key hkey'
        obtain ⟨now, hnow, hlease', -⟩ := getElem?_set_done_of hsent hbefore
        refine ⟨i, now, ?_, hnow, hlease'.trans hlease⟩
        rw [Function.update_of_ne (Ne.symm hnode)]
        exact hwritten

/-- A lease is granted, and the put on it sent. -/
theorem Accounted.grant (h : r.Accounted J c) (n : Bytes) {lease : ℤ} (hne : lease ≠ 0)
    (hnew : lease ∉ r.granted) : ((r.grant lease).send n lease).Accounted J c := by
  have hold : ∀ {i : ℕ} {sent : PutRequest}, (r.puts ++ [⟨n, lease, false⟩])[i]? = some sent →
      r.puts[i]? = some sent ∨ i = r.puts.length ∧ sent.lease = lease := by
    intro i sent hsent
    rw [List.getElem?_append] at hsent
    split_ifs at hsent with hlt
    · exact Or.inl hsent
    · right
      have hzero : i - r.puts.length = 0 := by
        by_contra hpos
        obtain ⟨k, hk⟩ := Nat.exists_eq_succ_of_ne_zero hpos
        rw [hk] at hsent
        cases hsent
      rw [hzero] at hsent
      obtain rfl := Option.some.inj hsent
      exact ⟨by omega, rfl⟩
  have hthere : ∀ {i : ℕ} {sent : PutRequest}, r.puts[i]? = some sent →
      (r.puts ++ [⟨n, lease, false⟩])[i]? = some sent := fun hsent => by
    rw [List.getElem?_append_left (List.getElem?_eq_some_iff.mp hsent).1]
    exact hsent
  refine ⟨?_, fun other hother => ?_, fun i sent hsent => ?_,
    fun i j sent other hsent hother hlease => ?_, fun m i hwritten => ?_, fun m key hkey => ?_⟩
  · intro hmem
    rcases List.mem_cons.mp hmem with hzero | hmem
    · exact hne hzero.symm
    · exact h.zero hmem
  · rcases List.mem_cons.mp hother with rfl | hother
    · exact List.mem_cons_self
    · exact List.mem_cons_of_mem _ (h.live other hother)
  · rcases hold hsent with hsent | ⟨-, rfl⟩
    · exact List.mem_cons_of_mem _ (h.sent i sent hsent)
    · exact List.mem_cons_self
  · -- the new put is on a lease of its own
    rcases hold hsent with hsent | ⟨hi, hits⟩
    · rcases hold hother with hother | ⟨-, hits⟩
      · exact h.distinct i j sent other hsent hother hlease
      · exact absurd (hits ▸ hlease ▸ h.sent i sent hsent) hnew
    · rcases hold hother with hother | ⟨hj, -⟩
      · exact absurd (hits ▸ hlease ▸ h.sent j other hother) hnew
      · exact hi.trans hj.symm
  · obtain ⟨sent, hsent, hkey⟩ := h.wrote m i hwritten
    refine ⟨sent, hthere hsent, fun hlive => hkey ?_⟩
    rcases List.mem_cons.mp hlive with hlease | hlive
    · exact absurd (hlease ▸ h.sent i sent hsent) hnew
    · exact hlive
  · obtain ⟨i, sent, hwritten, hsent, hlease⟩ := h.writer m key hkey
    exact ⟨i, sent, hwritten, hthere hsent, hlease⟩

end Registry

/-- What is known of the leases and puts of all nodes. -/
structure Registering.Accounted (J : JsonCodec) (c : RegisterConfig) (s : Registering) : Prop where
  registry : s.registry.Accounted J c
  held : ∀ n, (s.nodes n).lease = 0 ∨ (s.nodes n).lease ∈ s.registry.granted
  putting : ∀ n request, (s.nodes n).stage = .putting request →
    ∃ sent, s.registry.puts[request]? = some sent ∧ sent.lease = (s.nodes n).lease

/-- What stays of the leases and puts, whatever a step does to them. -/
structure Registry.Extends (r after : Registry) : Prop where
  granted : ∀ lease ∈ r.granted, lease ∈ after.granted
  puts : ∀ (request : ℕ) (sent : PutRequest), r.puts[request]? = some sent →
    ∃ now, after.puts[request]? = some now ∧ now.lease = sent.lease

theorem Registry.Extends.of_eq (hgranted : after.granted = r.granted)
    (hputs : after.puts = r.puts) : r.Extends after where
  granted _ h := hgranted ▸ h
  puts _ sent h := ⟨sent, hputs ▸ h, rfl⟩

theorem Registry.extends_put (request : ℕ) : r.Extends (r.put J c request) := by
  rcases Registry.put_cases J c r request with hsame | ⟨sent, hsent, -, hput⟩
  · rw [hsame]
    exact .of_eq rfl rfl
  · rw [hput]
    refine ⟨fun _ h => h, fun i before hbefore => ?_⟩
    obtain ⟨now, hnow, hlease, -⟩ := Registry.getElem?_set_done_of hsent hbefore
    exact ⟨now, hnow, hlease⟩

theorem Registry.extends_grant (n : Bytes) (lease : ℤ) :
    r.Extends ((r.grant lease).send n lease) where
  granted _ h := List.mem_cons_of_mem _ h
  puts request sent hsent := by
    refine ⟨sent, ?_, rfl⟩
    show (r.puts ++ _)[request]? = _
    rw [List.getElem?_append_left (List.getElem?_eq_some_iff.mp hsent).1]
    exact hsent

theorem Moved.extends {s : Registering} {n : Bytes} {e : RegistrantEvent}
    (h : Moved J c s n e r node) : s.registry.Extends r := by
  cases h with
  | granted lease => exact Registry.extends_grant n lease
  | leaves reached _ _ hafter =>
    rcases hafter with rfl | rfl
    · exact .of_eq rfl rfl
    · exact .of_eq rfl rfl
  | _ => exact .of_eq rfl rfl

theorem Moved.accounted {s : Registering} {n : Bytes} {e : RegistrantEvent}
    (h : s.registry.Accounted J c) (hmoved : Moved J c s n e r node) : r.Accounted J c := by
  cases hmoved with
  | granted lease _ hne hnew => exact h.grant n hne hnew
  | leaves reached _ _ hafter =>
    rcases hafter with rfl | rfl
    · exact h
    · exact h.lapse _
  | _ => exact h

/-- The lease of a node that has moved on is its old one, none, or the one it was granted. -/
theorem Moved.lease {s : Registering} {n : Bytes} {e : RegistrantEvent}
    (h : Moved J c s n e r node) :
    node.lease = (s.nodes n).lease ∨ node.lease = 0 ∨ node.lease ∈ r.granted := by
  cases h with
  | refused => exact Or.inr (Or.inl rfl)
  | granted lease => exact Or.inr (Or.inr List.mem_cons_self)
  | leaves => exact Or.inr (Or.inl rfl)
  | dies => exact Or.inr (Or.inl rfl)
  | takes inPass held =>
    left
    cases held <;> rfl
  | hears =>
    left
    unfold Registrant.hear
    split <;> rfl
  | _ => exact Or.inl rfl

/-- A node that has moved on into its put has just sent it. -/
theorem Moved.putting {s : Registering} {n : Bytes} {e : RegistrantEvent} {request : ℕ}
    (h : Moved J c s n e r node) (hputting : node.stage = .putting request) :
    ((s.nodes n).stage = .putting request ∧ node.lease = (s.nodes n).lease) ∨
      r.puts[request]? = some ⟨n, node.lease, false⟩ := by
  cases h with
  | starts hat =>
    unfold Registrant.refresh at hputting
    dsimp only at hputting
    split_ifs at hputting
  | wakes hat =>
    unfold Registrant.refresh at hputting
    dsimp only at hputting
    split_ifs at hputting
  | granted lease =>
    right
    obtain rfl := RegisterStage.putting.inj hputting
    show (s.registry.puts ++ _)[s.registry.puts.length]? = _
    rw [List.getElem?_append_right le_rfl, Nat.sub_self]
    rfl
  | takes inPass held =>
    cases inPass <;> cases hputting
  | watches => exact Or.inl ⟨hputting, rfl⟩
  | reports => exact Or.inl ⟨hputting, rfl⟩
  | cut => exact Or.inl ⟨hputting, rfl⟩
  | hears =>
    left
    unfold Registrant.hear at hputting ⊢
    split at hputting
    · exact ⟨hputting, rfl⟩
    · exact ⟨hputting, rfl⟩
    · exact ⟨hputting, rfl⟩
  | _ => cases hputting

namespace Registering

theorem Accounted.extends {s : Registering} (h : Accounted J c s) (hr : s.registry.Extends after)
    (hafter : after.Accounted J c) : Accounted J c { s with registry := after } where
  registry := hafter
  held n := (h.held n).imp_right (hr.granted _)
  putting n request hputting := by
    obtain ⟨sent, hsent, hlease⟩ := h.putting n request hputting
    obtain ⟨now, hnow, hsame⟩ := hr.puts request sent hsent
    exact ⟨now, hnow, hsame.trans hlease⟩

theorem Accounted.step {s : Registering} (h : Accounted J c s) (e : RegisterEvent) :
    Accounted J c (s.step J c e) := by
  cases e with
  | passes time => exact ⟨h.registry, h.held, h.putting⟩
  | lapses lease =>
    exact h.extends (.of_eq rfl rfl) (h.registry.lapse lease)
  | written =>
    have hr := h.registry
    have hafter : { s.registry with revision := s.registry.revision + 1 }.Accounted J c :=
      ⟨hr.zero, hr.live, hr.sent, hr.distinct, hr.wrote, hr.writer⟩
    exact h.extends (.of_eq rfl rfl) hafter
  | carries request => exact h.extends (Registry.extends_put request) (h.registry.put request)
  | «at» n e =>
    have hall := fun registry node (hmoved : Moved J c s n e registry node) =>
      h.extends hmoved.extends (hmoved.accounted h.registry)
    refine ⟨?_, ?_, ?_⟩
    · refine turn_rule (P := fun r _ _ => r.Accounted J c) (fun _ => h.registry)
        (fun registry node hmoved => ?_) n
      exact ⟨(hall _ _ hmoved).registry, fun _ _ => (hall _ _ hmoved).registry⟩
    · refine turn_rule (P := fun r _ node => node.lease = 0 ∨ node.lease ∈ r.granted) h.held
        fun registry node hmoved => ⟨?_, fun m _ => (hall _ _ hmoved).held m⟩
      rcases hmoved.lease with hlease | hlease | hlease
      · rw [hlease]
        exact (hall _ _ hmoved).held n
      · exact Or.inl hlease
      · exact Or.inr hlease
    · refine turn_rule (P := fun r _ node => ∀ request, node.stage = .putting request →
          ∃ sent, r.puts[request]? = some sent ∧ sent.lease = node.lease) h.putting
        fun registry node hmoved => ⟨fun request hputting => ?_, fun m _ =>
          (hall _ _ hmoved).putting m⟩
      rcases hmoved.putting hputting with ⟨hbefore, hlease⟩ | hsent
      · rw [hlease]
        exact (hall _ _ hmoved).putting n request hbefore
      · exact ⟨_, hsent, rfl⟩

theorem accounted_start (J : JsonCodec) (c : RegisterConfig) : Accounted J c {} where
  registry := {
    zero := List.not_mem_nil
    live := fun _ h => absurd h List.not_mem_nil
    sent := fun _ _ h => by cases h
    distinct := fun _ _ _ _ h => by cases h
    wrote := fun _ _ h => by cases h
    writer := fun n key h => by
      have hempty : (∅ : Std.ExtTreeMap Bytes NodeKey)[c.path n]? = some key := h
      rw [Std.ExtTreeMap.getElem?_empty] at hempty
      cases hempty }
  held _ := Or.inl rfl
  putting _ _ h := by cases h

end Registering

/-! ### A node that holds a lease, and its key -/

/-- A node that is past its put and whose lease has not run out has its key on it. -/
def Registry.Keyed (J : JsonCodec) (c : RegisterConfig) (r : Registry) (n : Bytes)
    (node : Registrant) : Prop :=
  (∀ request, node.stage ≠ .putting request) → node.lease ∈ r.live →
    r.keys[c.path n]? = some ⟨c.value J n, node.lease⟩

namespace Registry

theorem Keyed.lapse {n : Bytes} (h : r.Keyed J c n node) (lease : ℤ) :
    (r.lapse lease).Keyed J c n node := by
  intro hpast hlive
  obtain ⟨hlive, hne⟩ := mem_live_lapse.mp hlive
  exact keys_lapse.mpr ⟨h hpast hlive, hne⟩

theorem Keyed.grant {n : Bytes} (h : r.Keyed J c n node)
    (hheld : node.lease = 0 ∨ node.lease ∈ r.granted) (m : Bytes) {lease : ℤ} (hne : lease ≠ 0)
    (hnew : lease ∉ r.granted) : ((r.grant lease).send m lease).Keyed J c n node := by
  intro hpast hlive
  -- the lease that is granted is no node's yet
  rcases List.mem_cons.mp hlive with hsame | hlive
  · rcases hheld with hzero | hheld
    · exact absurd (hsame.symm.trans hzero) hne
    · exact absurd (hsame ▸ hheld) hnew
  · exact h hpast hlive

theorem keyed_zero (h : r.Accounted J c) {n : Bytes} (hzero : node.lease = 0) :
    r.Keyed J c n node := fun _ hlive => absurd (h.live _ (hzero ▸ hlive)) h.zero

/-- Another node's put changes nothing for a node, and its own does not where it is on the lease the
node holds. -/
theorem Keyed.put {n : Bytes} (h : r.Keyed J c n node) {request : ℕ}
    (hown : ∀ sent, r.puts[request]? = some sent → sent.lease ∈ r.live → sent.node = n →
      (∃ own, node.stage = .putting own) ∨ node.lease ∉ r.live ∨ sent.lease = node.lease) :
    (r.put J c request).Keyed J c n node := by
  rcases put_cases J c r request with hsame | ⟨sent, hsent, hlive, hput⟩
  · rw [hsame]
    exact h
  · rw [hput]
    intro hpast hheld
    show (r.keys.insert _ _)[c.path n]? = _
    rw [getElem?_insert_path]
    split_ifs with hnode
    · subst hnode
      rcases hown sent hsent hlive rfl with ⟨own, hputting⟩ | hgone | hlease
      · exact absurd hputting (hpast own)
      · exact absurd hheld hgone
      · rw [hlease]
    · exact h hpast hheld

end Registry

/-- What becomes of the lease of a node that moves on, and of its put. -/
theorem Moved.lease_cases {s : Registering} {n : Bytes} {e : RegistrantEvent}
    (h : Moved J c s n e r node) :
    node.lease = 0 ∨ (∃ request, node.stage = .putting request) ∨
      (node.lease = (s.nodes n).lease ∧
        ((∀ request, (s.nodes n).stage ≠ .putting request) ∨ node.stage = (s.nodes n).stage)) ∨
      ∃ request heard, e = .puts heard ∧ (s.nodes n).stage = .putting request ∧
        node.lease = (s.nodes n).lease ∧ r = s.registry ∧ node.stage = .ranging true := by
  have hnot : ∀ stage, (s.nodes n).stage = stage → (∀ request, stage ≠ .putting request) →
      ∀ request, (s.nodes n).stage ≠ .putting request := fun stage hat hne request hputting =>
    hne request (hat.symm.trans hputting)
  cases h with
  | refused => exact Or.inl rfl
  | leaves => exact Or.inl rfl
  | dies => exact Or.inl rfl
  | granted => exact Or.inr (Or.inl ⟨_, rfl⟩)
  | puts heard request _ hat =>
    exact Or.inr (Or.inr (Or.inr ⟨request, heard, rfl, hat, rfl, rfl, rfl⟩))
  | takes inPass held revision hat =>
    refine Or.inr (Or.inr (Or.inl ⟨?_, Or.inl (hnot _ hat fun _ h => by cases h)⟩))
    cases held <;> rfl
  | watches => exact Or.inr (Or.inr (Or.inl ⟨rfl, Or.inr rfl⟩))
  | reports => exact Or.inr (Or.inr (Or.inl ⟨rfl, Or.inr rfl⟩))
  | cut => exact Or.inr (Or.inr (Or.inl ⟨rfl, Or.inr rfl⟩))
  | hears =>
    right; right; left
    unfold Registrant.hear
    split
    · exact ⟨rfl, Or.inr rfl⟩
    · exact ⟨rfl, Or.inr rfl⟩
    · exact ⟨rfl, Or.inr rfl⟩
  | starts hat | discovers hat | wakes hat | kept hat | lost _ hat | ranges _ _ hat | leads hat =>
    exact Or.inr (Or.inr (Or.inl ⟨rfl, Or.inl (hnot _ hat fun _ h => by cases h)⟩))

namespace Registering

/-- Every node is keyed. -/
def AllKeyed (J : JsonCodec) (c : RegisterConfig) (s : Registering) : Prop :=
  ∀ n, s.registry.Keyed J c n (s.nodes n)

/-- When a node's put is given up or answered, it is what its key was written with last, unless its
lease has run out; and once a node is past its put and holds a lease, no put of it is carried out
that is on another lease. -/
def WritesInTime (s : Registering) : RegisterEvent → Prop
  | .passes _ | .lapses _ | .written => True
  | .carries request => ∀ sent, s.registry.puts[request]? = some sent →
    sent.lease ∈ s.registry.live → (∃ own, (s.nodes sent.node).stage = .putting own) ∨
      (s.nodes sent.node).lease ∉ s.registry.live ∨ sent.lease = (s.nodes sent.node).lease
  | .at n e => ∀ heard, e = .puts heard → ∀ request, (s.nodes n).stage = .putting request →
    (s.nodes n).lease ∈ s.registry.live → s.registry.written n = some request

theorem AllKeyed.step {s : Registering} (ha : s.Accounted J c) (h : s.AllKeyed J c)
    {e : RegisterEvent} (hwrites : s.WritesInTime e) : (s.step J c e).AllKeyed J c := by
  cases e with
  | passes time => exact h
  | lapses lease => exact fun m => (h m).lapse lease
  | written => exact h
  | carries request =>
    intro m
    refine (h m).put fun sent hsent hlive hnode => ?_
    subst hnode
    exact hwrites sent hsent hlive
  | «at» n e =>
    refine turn_rule h fun registry node hmoved => ?_
    -- what the registry becomes keeps what every node had
    have hall : ∀ other, registry.Keyed J c other (s.nodes other) := by
      intro other
      have hother := h other
      cases hmoved with
      | granted lease _ hne hnew => exact hother.grant (ha.held other) n hne hnew
      | leaves reached _ _ hafter =>
        rcases hafter with rfl | rfl
        · exact hother
        · exact hother.lapse _
      | _ => exact hother
    refine ⟨fun hpast hlive => ?_, fun m _ => hall m⟩
    rcases hmoved.lease_cases with hzero | ⟨request, hputting⟩ | ⟨hlease, hstage⟩ |
      ⟨request, heard, rfl, hat, hlease, rfl, -⟩
    · exact Registry.keyed_zero (hmoved.accounted ha.registry) hzero hpast hlive
    · exact absurd hputting (hpast request)
    · rw [hlease] at hlive ⊢
      refine hall n (fun request hat => ?_) hlive
      rcases hstage with hnot | hsame
      · exact hnot request hat
      · exact hpast request (hsame.trans hat)
    · -- the put is over, and stands in the key
      rw [hlease] at hlive ⊢
      obtain ⟨sent, hsent, hits⟩ := ha.putting n request hat
      have hwritten := hwrites heard rfl request hat hlive
      obtain ⟨sent', hsent', hkey⟩ := ha.registry.wrote n request hwritten
      obtain rfl := Option.some.inj (hsent.symm.trans hsent')
      rw [← hits]
      exact hkey (hits ▸ hlive)

/-- Where a put is not in time, a node is without its key. -/
theorem AllKeyed.writesInTime {s : Registering} (ha : s.Accounted J c) {e : RegisterEvent}
    (h : (s.step J c e).AllKeyed J c) : s.WritesInTime e := by
  cases e with
  | passes time => trivial
  | lapses lease => trivial
  | written => trivial
  | carries request =>
    intro sent hsent hlive
    by_contra hnot
    rw [not_or, not_or, not_not] at hnot
    obtain ⟨hpast, hheld, hother⟩ := hnot
    -- the put has left its own lease in the key of a node that is past it
    have hkeyed : (s.registry.put J c request).Keyed J c sent.node (s.nodes sent.node) :=
      h sent.node
    rw [Registry.put_eq hsent hlive] at hkeyed
    have hkey := hkeyed (fun own hputting => hpast ⟨own, hputting⟩) hheld
    rw [Registry.getElem?_insert_path, if_pos rfl] at hkey
    exact hother (congrArg NodeKey.lease (Option.some.inj hkey))
  | «at» n e =>
    rintro heard rfl request hat hlive
    have hturn : s.turn J c n (.puts heard) = s.puts n heard := rfl
    have hkeyed : (s.puts n heard).registry.Keyed J c n ((s.puts n heard).nodes n) := h n
    unfold Registering.puts at hkeyed
    rw [hat] at hkeyed
    have hkeyed' : s.registry.Keyed J c n (Function.update s.nodes n _ n) := hkeyed
    rw [Function.update_self] at hkeyed'
    have hkey := hkeyed' (fun _ hputting => by cases hputting) hlive
    -- what stands in the key was put on the node's lease, which only this put is on
    obtain ⟨other, sent', hwritten, hsent', hlease'⟩ := ha.registry.writer n _ hkey
    obtain ⟨sent, hsent, hlease⟩ := ha.putting n request hat
    rw [ha.registry.distinct request other sent sent' hsent hsent' (hlease.trans hlease'.symm)]
    exact hwritten

/-- **When a node with a lease is registered.** In every state of a run each node that holds a lease
which has not run out, and is not in its put, has its key on that lease, exactly if each put of a
node is carried out before the call of it ends and none of an older lease after it. -/
theorem registered_iff (J : JsonCodec) (c : RegisterConfig) (es : List RegisterEvent) :
    Always (step J c) (AllKeyed J c) {} es ↔ Throughout (step J c) WritesInTime {} es := by
  have haccounted : Always (step J c) (Accounted J c) {} es :=
    (throughout_true ({} : Registering) es).always (fun _ e hs _ => hs.step e)
      (accounted_start J c)
  refine always_iff_throughout (I := fun s => Accounted J c s ∧ AllKeyed J c s)
    (fun _ h => h.2) (fun s e hs hnext hwrites => ⟨hnext, hs.2.step hs.1 hwrites⟩)
    (fun s e hs _ hkeyed => hkeyed.writesInTime hs.1) ⟨accounted_start J c, fun n => ?_⟩ haccounted
  exact Registry.keyed_zero (accounted_start J c).registry rfl

end Registering

/-! ### A node that was left out -/

/-- In a pass that is past its put, or between two passes. -/
def RegisterStage.IsPast : RegisterStage → Prop
  | .waiting | .keeping | .leading => True
  | .ranging inPass => inPass = true
  | .ranged inPass _ _ => inPass = true
  | .stopped | .granting | .putting _ => False

/-- A node that was left out: it holds a lease and is past its put, and has no key. -/
structure Registering.LeftOut (c : RegisterConfig) (n : Bytes) (lease : ℤ) (registrations : ℕ)
    (s : Registering) : Prop where
  past : (s.nodes n).stage.IsPast
  lease : (s.nodes n).lease = lease
  registrations : (s.nodes n).registrations = registrations
  key : s.registry.keys[c.path n]? = none

/-- A step that keeps the lease of a node, where none of its puts is carried out after all. -/
def Registering.KeepsLease (n : Bytes) (s : Registering) : RegisterEvent → Prop
  | .passes _ | .lapses _ | .written => True
  | .carries request => ∀ sent, s.registry.puts[request]? = some sent → sent.node ≠ n
  | .at m e => m = n → e ≠ .dies ∧ (∀ reached, e ≠ .leaves reached) ∧
    ∀ reached, e = .keeps reached → reached = true ∧ (s.nodes n).lease ∈ s.registry.live

/-- A pass of a node that keeps its lease does not come to a put. -/
theorem Moved.past {s : Registering} {n : Bytes} {e : RegistrantEvent}
    (h : Moved J c s n e r node) (hpast : (s.nodes n).stage.IsPast) (hlease : (s.nodes n).lease ≠ 0)
    (hdies : e ≠ .dies) (hleaves : ∀ reached, e ≠ .leaves reached)
    (hkeeps : ∀ reached, e = .keeps reached →
      reached = true ∧ (s.nodes n).lease ∈ s.registry.live) :
    node.stage.IsPast ∧ node.lease = (s.nodes n).lease ∧
      node.registrations = (s.nodes n).registrations ∧ r.keys = s.registry.keys := by
  cases h with
  | starts hat | discovers hat | refused hat | granted _ hat | puts _ _ _ hat =>
    rw [hat] at hpast
    exact hpast.elim
  | wakes hat =>
    refine ⟨?_, rfl, rfl, rfl⟩
    show (if (s.nodes n).lease = 0 then RegisterStage.granting else .keeping).IsPast
    -- with a lease it is kept alive, and none is granted
    rw [if_neg hlease]
    trivial
  | kept => exact ⟨rfl, rfl, rfl, rfl⟩
  | lost reached hat hlost =>
    -- only a lease that is lost would have the node register again
    obtain ⟨hreached, hlive⟩ := hkeeps reached rfl
    exact absurd hlive (hlost hreached)
  | ranges reached inPass hat =>
    rw [hat] at hpast
    exact ⟨hpast, rfl, rfl, rfl⟩
  | takes inPass held revision hat =>
    rw [hat] at hpast
    obtain rfl : inPass = true := hpast
    refine ⟨trivial, ?_, ?_, rfl⟩
    · cases held <;> rfl
    · cases held <;> rfl
  | leads => exact ⟨trivial, rfl, rfl, rfl⟩
  | leaves reached => exact absurd rfl (hleaves reached)
  | dies => exact absurd rfl hdies
  | watches => exact ⟨hpast, rfl, rfl, rfl⟩
  | reports => exact ⟨hpast, rfl, rfl, rfl⟩
  | cut => exact ⟨hpast, rfl, rfl, rfl⟩
  | hears =>
    unfold Registrant.hear
    split
    · exact ⟨hpast, rfl, rfl, rfl⟩
    · exact ⟨hpast, rfl, rfl, rfl⟩
    · exact ⟨hpast, rfl, rfl, rfl⟩

/-- What another node does writes no key. -/
theorem Moved.keys_none {s : Registering} {n : Bytes} {e : RegistrantEvent} {path : Bytes}
    (h : Moved J c s n e r node) (hnone : s.registry.keys[path]? = none) :
    r.keys[path]? = none := by
  cases h with
  | leaves reached _ _ hafter =>
    rcases hafter with rfl | rfl
    · exact hnone
    · refine Option.eq_none_iff_forall_ne_some.mpr fun key hkey => ?_
      rw [(Registry.keys_lapse.mp hkey).1] at hnone
      cases hnone
  | _ => exact hnone

namespace Registering

theorem LeftOut.step {n : Bytes} {lease : ℤ} {registrations : ℕ} {s : Registering}
    (h : LeftOut c n lease registrations s) (hlease : lease ≠ 0) {e : RegisterEvent}
    (hkeeps : KeepsLease n s e) : LeftOut c n lease registrations (s.step J c e) := by
  cases e with
  | passes time => exact ⟨h.past, h.lease, h.registrations, h.key⟩
  | lapses other =>
    refine ⟨h.past, h.lease, h.registrations, ?_⟩
    refine Option.eq_none_iff_forall_ne_some.mpr fun key hkey => ?_
    have hheld := (Registry.keys_lapse.mp hkey).1
    rw [h.key] at hheld
    cases hheld
  | written => exact ⟨h.past, h.lease, h.registrations, h.key⟩
  | carries request =>
    refine ⟨h.past, h.lease, h.registrations, ?_⟩
    show (s.registry.put J c request).keys[c.path n]? = none
    rcases Registry.put_cases J c s.registry request with hsame | ⟨sent, hsent, -, hput⟩
    · rw [hsame]
      exact h.key
    · rw [hput]
      show (s.registry.keys.insert _ _)[c.path n]? = none
      rw [Registry.getElem?_insert_path, if_neg (hkeeps sent hsent)]
      exact h.key
  | «at» m e =>
    show LeftOut c n lease registrations (s.turn J c m e)
    rcases turn_cases J c s m e with hsame | ⟨registry, node, hmoved, hturn⟩
    · rw [hsame]
      exact h
    rw [hturn]
    by_cases hm : m = n
    · subst hm
      obtain ⟨hdies, hleaves, hkept⟩ := hkeeps rfl
      obtain ⟨hpast, hsame, hcount, hkeys⟩ :=
        hmoved.past h.past (h.lease ▸ hlease) hdies hleaves hkept
      have hself : (({ s with registry } : Registering).set m node).nodes m = node :=
        Function.update_self _ _ _
      refine ⟨?_, ?_, ?_, ?_⟩
      · rw [hself]
        exact hpast
      · rw [hself]
        exact hsame.trans h.lease
      · rw [hself]
        exact hcount.trans h.registrations
      · show registry.keys[c.path m]? = none
        rw [hkeys]
        exact h.key
    · have hother : (({ s with registry } : Registering).set m node).nodes n = s.nodes n :=
        Function.update_of_ne (Ne.symm hm) _ _
      refine ⟨?_, ?_, ?_, hmoved.keys_none h.key⟩
      · rw [hother]
        exact h.past
      · rw [hother]
        exact h.lease
      · rw [hother]
        exact h.registrations

/-- **A node that was left out stays so.** One that waits with a lease and without its key, its put
having been lost, is registered by none of its passes for as long as that lease is kept alive; and
no other node at rest lists it. -/
theorem left_out_for_good (J : JsonCodec) (c : RegisterConfig) (es es' : List RegisterEvent)
    (n : Bytes) (hwaiting : ((run (step J c) {} es).nodes n).stage = .waiting)
    (hlease : ((run (step J c) {} es).nodes n).lease ≠ 0)
    (hkey : ¬(run (step J c) {} es).IsRegistered c n)
    (hkeeps : Throughout (step J c) (KeepsLease n) (run (step J c) {} es) es') :
    let s := run (step J c) {} es
    let s' := run (step J c) s es'
    ¬s'.IsRegistered c n ∧ (s'.nodes n).lease = (s.nodes n).lease ∧
      (s'.nodes n).registrations = (s.nodes n).registrations ∧
      ((∀ m, s'.IsRegistered c m → c.IsNamed m) → ∀ m, m ≠ n → s'.Rests m →
        ∀ read ∈ (s'.nodes m).membership.members, read.node ≠ n) := by
  intro s s'
  have hout : LeftOut c n (s.nodes n).lease (s.nodes n).registrations s' := by
    refine hkeeps.invariant (fun _ e h hC => h.step hlease hC) ⟨?_, rfl, rfl, ?_⟩
    · rw [hwaiting]
      trivial
    · exact Option.not_isSome_iff_eq_none.mp hkey
  have hnot : ¬s'.IsRegistered c n := by
    rw [IsRegistered, hout.key]
    exact Bool.false_ne_true
  refine ⟨hnot, hout.lease, hout.registrations, fun hnamed m hm hrests read hread hname => ?_⟩
  -- a node at rest lists none but itself and who is registered
  have hrun : s' = run (step J c) {} (es ++ es') := (run_append _ _ _).symm
  rw [hrun] at hnamed hrests hread hnot
  rcases ((resting_nodes_agree J c (es ++ es')).2.1 hnamed m hrests read).mp hread with
    rfl | ⟨hregistered, -⟩
  · exact hm hname
  · exact hnot (hname ▸ hregistered)

/-- A put that is lost: the lease was granted, and the call of the put fails. -/
def putLost (n : Bytes) : List RegisterEvent :=
  [.at n .starts, .at n (.grants (some 1)), .at n (.puts false), .at n (.ranges true), .at n .takes,
    .at n .leads]

/-- A pass that keeps the lease. -/
def passKept (n : Bytes) : List RegisterEvent :=
  [.at n .wakes, .at n (.keeps true), .at n (.ranges true), .at n .takes, .at n .leads]

/-- The first put of a node is lost, and another beside it registers. -/
def oneLost : List RegisterEvent := putLost (ascii "a") ++ firstPass (ascii "b") 2 1

/-- Both go through a pass, the other as it is told of all there is. -/
def bothPass : List RegisterEvent := passTold (ascii "b") 1 ++ passKept (ascii "a")

theorem keepsLease_bothPass : Throughout (step JsonText.codec { zone := fun _ => [] })
    (KeepsLease (ascii "a")) (run (step JsonText.codec { zone := fun _ => [] }) {} oneLost)
    bothPass := by
  -- the steps of the other node, and of this one those that end no lease
  have hother : ∀ (s : Registering) (e : RegistrantEvent),
      KeepsLease (ascii "a") s (.at (ascii "b") e) := fun s e hsame => absurd hsame (by decide)
  have hfree : ∀ (s : Registering) (e : RegistrantEvent), e ≠ .dies →
      (∀ reached, e ≠ .leaves reached) → (∀ reached, e ≠ .keeps reached) →
      KeepsLease (ascii "a") s (.at (ascii "a") e) :=
    fun s e hdies hleaves hkeeps _ => ⟨hdies, hleaves, fun reached h => absurd h (hkeeps reached)⟩
  rw [bothPass, throughout_append]
  constructor
  · exact ⟨hother _ _, hother _ _, hother _ _, hother _ _, hother _ _, hother _ _, hother _ _,
      trivial⟩
  · refine ⟨hfree _ .wakes (by simp) (by simp) (by simp), fun _ => ⟨by simp, by simp, ?_⟩,
      hfree _ (.ranges true) (by simp) (by simp) (by simp),
      hfree _ .takes (by simp) (by simp) (by simp), hfree _ .leads (by simp) (by simp) (by simp),
      trivial⟩
    -- the lease that is kept is the one that was granted
    refine fun reached hsame => ⟨(RegistrantEvent.keeps.inj hsame).symm, ?_⟩
    decide +kernel

theorem left_out_for_good_lost :
    let c : RegisterConfig := { zone := fun _ => [] }
    let s := run (step JsonText.codec c) {} oneLost
    let s' := run (step JsonText.codec c) s bothPass
    ¬s'.IsRegistered c (ascii "a") ∧
      (s'.nodes (ascii "a")).lease = (s.nodes (ascii "a")).lease ∧
      (s'.nodes (ascii "a")).registrations = (s.nodes (ascii "a")).registrations ∧
      s'.Rests (ascii "b") ∧
      ∀ read ∈ (s'.nodes (ascii "b")).membership.members, read.node ≠ ascii "a" := by
  intro c
  dsimp only
  have hbefore : ((run (step JsonText.codec c) {} oneLost).nodes (ascii "a")).stage.isWaiting =
      true := by
    decide +kernel
  have hlost : ((run (step JsonText.codec c) {} oneLost).nodes (ascii "a")).lease ≠ 0 ∧
      ¬(run (step JsonText.codec c) {} oneLost).IsRegistered c (ascii "a") := by
    decide +kernel
  have hafter : (run (step JsonText.codec c) (run (step JsonText.codec c) {} oneLost)
        bothPass).Rests (ascii "b") ∧
      (run (step JsonText.codec c) (run (step JsonText.codec c) {} oneLost)
        bothPass).registry.keys.toList.map Prod.fst = [c.path (ascii "b")] := by
    decide +kernel
  obtain ⟨hnot, hlease, hregistrations, hlisted⟩ := left_out_for_good JsonText.codec c oneLost
    bothPass (ascii "a") (RegisterStage.isWaiting_iff.mp hbefore) hlost.1 hlost.2
    keepsLease_bothPass
  generalize run (step JsonText.codec c) {} oneLost = s at *
  generalize run (step JsonText.codec c) s bothPass = s' at *
  obtain ⟨hrests, hkeys⟩ := hafter
  refine ⟨hnot, hlease, hregistrations, hrests, hlisted (fun m hm => ?_) _ (by decide) hrests⟩
  -- the other node is the one that is registered
  obtain ⟨key, hkey⟩ := Option.isSome_iff_exists.mp hm
  have hmem : c.path m ∈ s'.registry.keys.toList.map Prod.fst :=
    List.mem_map_of_mem (Std.ExtTreeMap.mem_toList_iff_getElem?_eq_some.mpr hkey)
  rw [hkeys, List.mem_singleton] at hmem
  rw [Registry.path_inj hmem]
  decide +kernel

end Registering

end AsyncDatabase
