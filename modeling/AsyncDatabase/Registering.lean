import AsyncDatabase.Library.JsonText
import AsyncDatabase.Library.Run
import AsyncDatabase.Membership

/-!
# Registering with etcd and reading who is registered

Every clustered node keeps a lease, writes its key on it and reads the keys of all of them
(`refresh`, `register_node` and `read_members` of `cluster/etcd_cluster.cpp`), on a tick and
whenever a watch reports a change (`run` and `watch` there). Here are all the nodes of a cluster and
what etcd keeps for them. A call is cut where etcd carries it out, which it may do late, again or
unheard.
`resting_nodes_agree` says what a node lists that has nothing to wait for but the tick, and
`unled_iff` when one reports that it stands unled.
-/

namespace AsyncDatabase

open Bytes (ascii)
open Machine

variable (J : JsonCodec)

/-! ### What is written, and read back -/

/-- The value of a node's key. -/
def registrationJson (node zone : Bytes) : Json :=
  .object [(ascii "node", .string node), (ascii "zone", .string zone)]

/-- `read_member`. What is no document with a name in it is the name. -/
def readMember (value : Bytes) : Member :=
  match (J.parse value).bind fun read => (read.member? (ascii "node")).bind Json.asString? with
  | none => ⟨value, []⟩
  | some node =>
    let zone := (J.parse value).bind fun read => (read.member? (ascii "zone")).bind Json.asString?
    ⟨node, zone.getD []⟩

/-- The list `read_members` puts together for a node, which is in it even where it is not
registered. -/
def readList (node zone : Bytes) (registered : Std.ExtTreeMap Bytes Bytes) : List Member :=
  let names := registered.toList.map fun held => readMember J held.2
  let found := names.any fun read => read.node = node
  (if found then names else names ++ [⟨node, zone⟩]).insertionSort fun left right =>
    ¬right.node < left.node

/-- `cluster::config`, as far as it is about registering: the zone is each node's own. -/
structure RegisterConfig where
  nodePrefix : Bytes := ascii "/asyncdb/node/"
  zone : Bytes → Bytes
  leaseSeconds : ℕ := 10

namespace RegisterConfig

variable (c : RegisterConfig)

def path (node : Bytes) : Bytes := c.nodePrefix ++ node

/-- What a node of this name writes. -/
def value (node : Bytes) : Bytes := J.serialize (registrationJson node (c.zone node))

end RegisterConfig

/-! ### What etcd keeps -/

/-- A node's key: its value, and the lease it goes with. -/
structure NodeKey where
  value : Bytes
  lease : ℤ
  deriving DecidableEq

/-- A put of a node's key that was sent. -/
structure PutRequest where
  node : Bytes
  lease : ℤ
  /-- It was carried out. -/
  done : Bool := false

/-- The keys of the nodes, the leases, and the puts that were sent. -/
structure Registry where
  /-- How often what is watched has changed. -/
  revision : ℕ := 0
  keys : Std.ExtTreeMap Bytes NodeKey := ∅
  /-- Every lease that was granted, and those of them that have not run out. -/
  granted : List ℤ := []
  live : List ℤ := []
  puts : List PutRequest := []
  /-- The put that wrote each node's key last. -/
  written : Bytes → Option ℕ := fun _ => none

namespace Registry

variable (c : RegisterConfig) (r : Registry)

/-- What a range of the nodes' keys answers. -/
def values : Std.ExtTreeMap Bytes Bytes := r.keys.map fun _ key => key.value

def holds (lease : ℤ) : Bool := r.keys.toList.any fun held => held.2.lease = lease

/-- A lease runs out, or is revoked, and takes the keys that were written on it. -/
def lapse (lease : ℤ) : Registry :=
  { r with
    revision := if r.holds lease then r.revision + 1 else r.revision
    keys := r.keys.filter fun _ key => key.lease ≠ lease
    live := r.live.filter (· ≠ lease) }

/-- A lease is granted, which no other ever was the same as. -/
def grant (lease : ℤ) : Registry :=
  { r with granted := lease :: r.granted, live := lease :: r.live }

/-- A put is carried out, for the first time or again. One on a lease that has run out is not. -/
def put (request : ℕ) : Registry :=
  match r.puts[request]? with
  | none => r
  | some sent =>
    if sent.lease ∈ r.live then
      { r with
        revision := r.revision + 1
        keys := r.keys.insert (c.path sent.node) ⟨c.value J sent.node, sent.lease⟩
        puts := r.puts.set request { sent with done := true }
        written := Function.update r.written sent.node (some request) }
    else r

/-- A node sends a put, which is the last of those sent. -/
def send (node : Bytes) (lease : ℤ) : Registry := { r with puts := r.puts ++ [{ node, lease }] }

end Registry

/-! ### A node -/

/-- Where a node is: stopped, between two passes, or in one. -/
inductive RegisterStage where
  | stopped
  | waiting
  | keeping
  | granting
  | putting (request : ℕ)
  /-- In `read_members`, as a part of a pass or of `discover`. -/
  | ranging (inPass : Bool)
  /-- What the range answered and at which revision. -/
  | ranged (inPass : Bool) (held : Option (Std.ExtTreeMap Bytes Bytes)) (revision : ℕ)
  | leading

def RegisterStage.isWaiting : RegisterStage → Bool
  | .waiting => true
  | .stopped | .keeping | .granting | .putting _ | .ranging _ | .ranged _ _ _ | .leading => false

theorem RegisterStage.isWaiting_iff {stage : RegisterStage} :
    stage.isWaiting = true ↔ stage = .waiting := by
  cases stage <;> simp [isWaiting]

/-- What `etcd_cluster` keeps of its registration and of what it reads. -/
structure Registrant where
  stage : RegisterStage := .stopped
  /-- `thread` and `watcher` are running. -/
  isRunning : Bool := false
  lease : ℤ := 0
  registrations : ℕ := 0
  answered : Bool := false
  membership : Membership := {}
  /-- `unled_since`, where the epoch is nothing. -/
  unledSince : Option ℕ := some 0
  changed : Bool := false
  /-- The lines of a watch on their way, each with the revision it tells of. -/
  stream : Option (List ℕ) := none
  /-- The revision a watch has told of. -/
  told : ℕ := 0
  /-- The revision the last pass began at, and the one the membership was read at. -/
  begun : ℕ := 0
  readAt : ℕ := 0
  /-- When the membership was read, the last time first, and who was listed, where etcd answered.
  The construction is one that found nobody. -/
  reads : List (ℕ × Option (List Member)) := [(0, none)]

namespace Registrant

variable (c : RegisterConfig) (node : Registrant)

/-- `stand_unled`. -/
def standUnled (now : ℕ) (unled : Bool) : Registrant :=
  { node with
    unledSince :=
      match unled, node.unledSince with
      | false, _ => none
      | true, none => some now
      | true, some since => some since }

/-- `is_unled`, by a clock of nanoseconds. -/
def isUnled (now : ℕ) : Bool :=
  match node.unledSince with
  | none => false
  | some since => decide (c.leaseSeconds * 1000000000 < now - since)

/-- `refresh` begins, with the lease it has. -/
def refresh (revision : ℕ) : Registrant :=
  { node with begun := revision, stage := if node.lease = 0 then .granting else .keeping }

/-- `read_members`, of what the range answered. -/
def readMembers (name : Bytes) (now : ℕ) (held : Option (Std.ExtTreeMap Bytes Bytes))
    (revision : ℕ) : Registrant :=
  match held with
  | none =>
    -- a node that has never read a membership has none to keep
    let alone := node.membership.replaceMembers name [⟨name, c.zone name⟩]
    { node.standUnled now true with
      answered := false
      membership := if node.membership.members = [] then alone else node.membership }
  | some registered =>
    let names := readList J name (c.zone name) registered
    -- a partition gained here is not vouched for until it has been fetched
    { node.standUnled now (names.length < 2) with
      answered := true
      membership := node.membership.replaceMembers name names
      readAt := revision }

/-- `leave`, which revokes the lease where it reaches etcd. -/
def leave : Registrant :=
  { node with stage := .stopped, isRunning := false, lease := 0, stream := none }

/-- A line of a watch is heard. -/
def hear : Registrant :=
  match node.stream with
  | none => node
  | some [] => node
  | some (line :: lines) =>
    { node with stream := some lines, told := max node.told line, changed := true }

end Registrant

/-- The nodes of a cluster, and etcd. -/
structure Registering where
  registry : Registry := {}
  nodes : Bytes → Registrant := fun _ => {}
  clock : ℕ := 0

/-- What a node does next, with what its surroundings give it. -/
inductive RegistrantEvent where
  | starts
  | discovers
  /-- The wait of `run` is over, on the tick or for a change. -/
  | wakes
  | keeps (reached : Bool)
  /-- The lease it is granted, where it hears of one. -/
  | grants (answer : Option ℤ)
  | puts (heard : Bool)
  | ranges (reached : Bool)
  | takes
  | leads
  | leaves (reached : Bool)
  /-- The process ends, and another begins. -/
  | dies
  /-- A watch is made, and tells of a revision once it is. -/
  | watches (upTo : ℕ)
  /-- etcd writes a line. -/
  | reports (upTo : ℕ)
  | hears
  /-- A watch ends, with what was on its way. -/
  | cut

inductive RegisterEvent where
  | passes (time : ℕ)
  | lapses (lease : ℤ)
  /-- Something else that is watched is written. -/
  | written
  | carries (request : ℕ)
  | at (node : Bytes) (event : RegistrantEvent)

namespace Registering

variable (c : RegisterConfig) (s : Registering) (n : Bytes)

def set (node : Registrant) : Registering :=
  { s with nodes := Function.update s.nodes n node }

def starts : Registering :=
  match (s.nodes n).stage with
  | .stopped => s.set n ((s.nodes n).refresh s.registry.revision)
  | .waiting | .keeping | .granting | .putting _ | .ranging _ | .ranged _ _ _ | .leading => s

def discovers : Registering :=
  match (s.nodes n).stage with
  | .stopped => s.set n { s.nodes n with stage := .ranging false }
  | .waiting | .keeping | .granting | .putting _ | .ranging _ | .ranged _ _ _ | .leading => s

def wakes : Registering :=
  match (s.nodes n).stage with
  | .waiting => s.set n ({ s.nodes n with changed := false }.refresh s.registry.revision)
  | .stopped | .keeping | .granting | .putting _ | .ranging _ | .ranged _ _ _ | .leading => s

/-- `keep_alive`, which a lease that has run out is refused. -/
def keeps (reached : Bool) : Registering :=
  match (s.nodes n).stage with
  | .keeping =>
    let kept := reached && decide ((s.nodes n).lease ∈ s.registry.live)
    s.set n { s.nodes n with stage := if kept then .ranging true else .granting }
  | .stopped | .waiting | .granting | .putting _ | .ranging _ | .ranged _ _ _ | .leading => s

/-- `register_node` up to its put. -/
def grants (answer : Option ℤ) : Registering :=
  match (s.nodes n).stage with
  | .granting =>
    match answer with
    | none => s.set n { s.nodes n with lease := 0, stage := .ranging true }
    | some lease =>
      -- etcd gives no lease out twice, and none is zero
      if lease = 0 ∨ lease ∈ s.registry.granted then s
      else
        { s with registry := (s.registry.grant lease).send n lease }.set n
          { s.nodes n with lease, stage := .putting s.registry.puts.length }
  | .stopped | .waiting | .keeping | .putting _ | .ranging _ | .ranged _ _ _ | .leading => s

/-- The put of `register_node` is answered, where it was carried out, or is given up. -/
def puts (heard : Bool) : Registering :=
  match (s.nodes n).stage with
  | .putting request =>
    -- the lease stays the node's, whatever became of the put
    let done := heard && (s.registry.puts[request]?).any PutRequest.done
    s.set n { s.nodes n with
      registrations := (s.nodes n).registrations + if done then 1 else 0
      stage := .ranging true }
  | .stopped | .waiting | .keeping | .granting | .ranging _ | .ranged _ _ _ | .leading => s

def ranges (reached : Bool) : Registering :=
  match (s.nodes n).stage with
  | .ranging inPass =>
    let held := if reached then some s.registry.values else none
    s.set n { s.nodes n with stage := .ranged inPass held s.registry.revision }
  | .stopped | .waiting | .keeping | .granting | .putting _ | .ranged _ _ _ | .leading => s

def takes : Registering :=
  match (s.nodes n).stage with
  | .ranged inPass held revision =>
    s.set n { (s.nodes n).readMembers J c n s.clock held revision with
      stage := if inPass then .leading else .stopped
      reads := (s.clock, held.map (readList J n (c.zone n))) :: (s.nodes n).reads }
  | .stopped | .waiting | .keeping | .granting | .putting _ | .ranging _ | .leading => s

/-- A pass ends, and the first starts the threads. -/
def leads : Registering :=
  match (s.nodes n).stage with
  | .leading => s.set n { s.nodes n with stage := .waiting, isRunning := true }
  | .stopped | .waiting | .keeping | .granting | .putting _ | .ranging _ | .ranged _ _ _ => s

def leaves (reached : Bool) : Registering :=
  match (s.nodes n).stage with
  | .waiting =>
    -- a lease that cannot be revoked runs out by itself
    { s with registry := if reached && decide ((s.nodes n).lease ≠ 0) then
        s.registry.lapse (s.nodes n).lease else s.registry }.set n (s.nodes n).leave
  | .stopped | .keeping | .granting | .putting _ | .ranging _ | .ranged _ _ _ | .leading => s

def dies : Registering := s.set n { unledSince := some s.clock, reads := [(s.clock, none)] }

def watches (upTo : ℕ) : Registering :=
  if (s.nodes n).isRunning = true ∧ (s.nodes n).stream = none ∧ upTo ≤ s.registry.revision then
    s.set n { s.nodes n with stream := some [upTo] }
  else s

def reports (upTo : ℕ) : Registering :=
  match (s.nodes n).stream with
  | none => s
  | some lines =>
    if upTo ≤ s.registry.revision then
      s.set n { s.nodes n with stream := some (lines ++ [upTo]) }
    else s

def turn : RegistrantEvent → Registering
  | .starts => s.starts n
  | .discovers => s.discovers n
  | .wakes => s.wakes n
  | .keeps reached => s.keeps n reached
  | .grants answer => s.grants n answer
  | .puts heard => s.puts n heard
  | .ranges reached => s.ranges n reached
  | .takes => s.takes J c n
  | .leads => s.leads n
  | .leaves reached => s.leaves n reached
  | .dies => s.dies n
  | .watches upTo => s.watches n upTo
  | .reports upTo => s.reports n upTo
  | .hears => s.set n (s.nodes n).hear
  | .cut => s.set n { s.nodes n with stream := none }

def step (s : Registering) : RegisterEvent → Registering
  | .passes time => { s with clock := s.clock + time }
  | .lapses lease => { s with registry := s.registry.lapse lease }
  | .written => { s with registry := { s.registry with revision := s.registry.revision + 1 } }
  | .carries request => { s with registry := s.registry.put J c request }
  | .at node event => s.turn J c node event

end Registering

/-! ### What a step does -/

/-- Nothing that is watched was written, or the revision has risen. -/
structure Registry.Rises (r after : Registry) : Prop where
  le : r.revision ≤ after.revision
  same : r.revision = after.revision → after.values = r.values

theorem Registry.Rises.refl (r : Registry) : r.Rises r := ⟨le_rfl, fun _ => rfl⟩

/-- What a node does next, where it does anything: the registry and the node afterwards. -/
inductive Moved (c : RegisterConfig) (s : Registering) (n : Bytes) :
    RegistrantEvent → Registry → Registrant → Prop where
  | starts (h : (s.nodes n).stage = .stopped) :
    Moved c s n .starts s.registry ((s.nodes n).refresh s.registry.revision)
  | discovers (h : (s.nodes n).stage = .stopped) :
    Moved c s n .discovers s.registry { s.nodes n with stage := .ranging false }
  | wakes (h : (s.nodes n).stage = .waiting) :
    Moved c s n .wakes s.registry
      ({ s.nodes n with changed := false }.refresh s.registry.revision)
  | kept (h : (s.nodes n).stage = .keeping) (hlive : (s.nodes n).lease ∈ s.registry.live) :
    Moved c s n (.keeps true) s.registry { s.nodes n with stage := .ranging true }
  | lost (reached : Bool) (h : (s.nodes n).stage = .keeping)
      (hlost : reached = true → (s.nodes n).lease ∉ s.registry.live) :
    Moved c s n (.keeps reached) s.registry { s.nodes n with stage := .granting }
  | refused (h : (s.nodes n).stage = .granting) :
    Moved c s n (.grants none) s.registry { s.nodes n with lease := 0, stage := .ranging true }
  | granted (lease : ℤ) (h : (s.nodes n).stage = .granting) (hne : lease ≠ 0)
      (hnew : lease ∉ s.registry.granted) :
    Moved c s n (.grants (some lease)) ((s.registry.grant lease).send n lease)
      { s.nodes n with lease, stage := .putting s.registry.puts.length }
  | puts (heard : Bool) (request registrations : ℕ) (h : (s.nodes n).stage = .putting request) :
    Moved c s n (.puts heard) s.registry
      { s.nodes n with registrations, stage := .ranging true }
  | ranges (reached inPass : Bool) (h : (s.nodes n).stage = .ranging inPass) :
    Moved c s n (.ranges reached) s.registry
      { s.nodes n with
        stage := .ranged inPass (if reached then some s.registry.values else none)
          s.registry.revision }
  | takes (inPass : Bool) (held : Option (Std.ExtTreeMap Bytes Bytes)) (revision : ℕ)
      (h : (s.nodes n).stage = .ranged inPass held revision) :
    Moved c s n .takes s.registry
      { (s.nodes n).readMembers J c n s.clock held revision with
        stage := if inPass then .leading else .stopped
        reads := (s.clock, held.map (readList J n (c.zone n))) :: (s.nodes n).reads }
  | leads (h : (s.nodes n).stage = .leading) :
    Moved c s n .leads s.registry { s.nodes n with stage := .waiting, isRunning := true }
  | leaves (reached : Bool) (after : Registry) (h : (s.nodes n).stage = .waiting)
      (hafter : after = s.registry ∨ after = s.registry.lapse (s.nodes n).lease) :
    Moved c s n (.leaves reached) after (s.nodes n).leave
  | dies : Moved c s n .dies s.registry { unledSince := some s.clock, reads := [(s.clock, none)] }
  | watches (upTo : ℕ) (hle : upTo ≤ s.registry.revision) :
    Moved c s n (.watches upTo) s.registry { s.nodes n with stream := some [upTo] }
  | reports (upTo : ℕ) (lines : List ℕ) (h : (s.nodes n).stream = some lines)
      (hle : upTo ≤ s.registry.revision) :
    Moved c s n (.reports upTo) s.registry { s.nodes n with stream := some (lines ++ [upTo]) }
  | hears : Moved c s n .hears s.registry (s.nodes n).hear
  | cut : Moved c s n .cut s.registry { s.nodes n with stream := none }

/-- A node does nothing, or what it does next. -/
theorem turn_cases (c : RegisterConfig) (s : Registering) (n : Bytes) (e : RegistrantEvent) :
    s.turn J c n e = s ∨ ∃ registry node, Moved J c s n e registry node ∧
      s.turn J c n e = { s with registry }.set n node := by
  cases e with
  | starts =>
    simp only [Registering.turn, Registering.starts]
    split
    · exact Or.inr ⟨_, _, .starts ‹_›, rfl⟩
    all_goals exact Or.inl rfl
  | discovers =>
    simp only [Registering.turn, Registering.discovers]
    split
    · exact Or.inr ⟨_, _, .discovers ‹_›, rfl⟩
    all_goals exact Or.inl rfl
  | wakes =>
    simp only [Registering.turn, Registering.wakes]
    split
    · exact Or.inr ⟨_, _, .wakes ‹_›, rfl⟩
    all_goals exact Or.inl rfl
  | keeps reached =>
    simp only [Registering.turn, Registering.keeps]
    split
    · rename_i h
      by_cases hkept : reached = true ∧ (s.nodes n).lease ∈ s.registry.live
      · rw [hkept.1]
        refine Or.inr ⟨_, _, .kept h hkept.2, ?_⟩
        simp [hkept.2]
      · refine Or.inr ⟨_, _, .lost reached h (fun hreached hlive => hkept ⟨hreached, hlive⟩), ?_⟩
        simp [hkept]
    all_goals exact Or.inl rfl
  | grants answer =>
    simp only [Registering.turn, Registering.grants]
    split
    · rename_i h
      cases answer with
      | none => exact Or.inr ⟨_, _, .refused h, rfl⟩
      | some lease =>
        dsimp only
        split_ifs with hused
        · exact Or.inl rfl
        · rw [not_or] at hused
          exact Or.inr ⟨_, _, .granted lease h hused.1 hused.2, rfl⟩
    all_goals exact Or.inl rfl
  | puts heard =>
    simp only [Registering.turn, Registering.puts]
    split
    · exact Or.inr ⟨_, _, .puts heard _ _ ‹_›, rfl⟩
    all_goals exact Or.inl rfl
  | ranges reached =>
    simp only [Registering.turn, Registering.ranges]
    split
    · exact Or.inr ⟨_, _, .ranges reached _ ‹_›, rfl⟩
    all_goals exact Or.inl rfl
  | takes =>
    simp only [Registering.turn, Registering.takes]
    split
    · exact Or.inr ⟨_, _, .takes _ _ _ ‹_›, rfl⟩
    all_goals exact Or.inl rfl
  | leads =>
    simp only [Registering.turn, Registering.leads]
    split
    · exact Or.inr ⟨_, _, .leads ‹_›, rfl⟩
    all_goals exact Or.inl rfl
  | leaves reached =>
    simp only [Registering.turn, Registering.leaves]
    split
    · refine Or.inr ⟨_, _, .leaves reached _ ‹_› ?_, rfl⟩
      split_ifs
      · exact Or.inr rfl
      · exact Or.inl rfl
    all_goals exact Or.inl rfl
  | dies => exact Or.inr ⟨_, _, .dies, rfl⟩
  | watches upTo =>
    simp only [Registering.turn, Registering.watches]
    split_ifs with h
    · exact Or.inr ⟨_, _, .watches upTo h.2.2, rfl⟩
    · exact Or.inl rfl
  | reports upTo =>
    simp only [Registering.turn, Registering.reports]
    cases hstream : (s.nodes n).stream with
    | none => exact Or.inl rfl
    | some lines =>
      dsimp only
      split_ifs with hle
      · exact Or.inr ⟨_, _, .reports upTo lines hstream hle, rfl⟩
      · exact Or.inl rfl
  | hears => exact Or.inr ⟨_, _, .hears, rfl⟩
  | cut => exact Or.inr ⟨_, _, .cut, rfl⟩

/-- **The rule of a turn.** What holds of every node holds of every node afterwards, where the node
whose turn it is comes to it and the others keep it. -/
theorem turn_rule {J : JsonCodec} {P : Registry → Bytes → Registrant → Prop} {c : RegisterConfig}
    {s : Registering} {n : Bytes} {e : RegistrantEvent} (h : ∀ m, P s.registry m (s.nodes m))
    (hmoved : ∀ registry node, Moved J c s n e registry node →
      P registry n node ∧ ∀ m, m ≠ n → P registry m (s.nodes m)) (m : Bytes) :
    P (s.turn J c n e).registry m ((s.turn J c n e).nodes m) := by
  rcases turn_cases J c s n e with hsame | ⟨registry, node, hmove, hturn⟩
  · rw [hsame]
    exact h m
  · obtain ⟨hown, hothers⟩ := hmoved registry node hmove
    rw [hturn]
    show P registry m (Function.update s.nodes n node m)
    by_cases hm : m = n
    · subst hm
      rw [Function.update_self]
      exact hown
    · rw [Function.update_of_ne hm]
      exact hothers m hm

namespace Registry

variable {r : Registry}

theorem rises_lapse (lease : ℤ) : r.Rises (r.lapse lease) := by
  unfold lapse
  by_cases hholds : r.holds lease = true
  · rw [if_pos hholds]
    exact ⟨Nat.le_succ _, fun hsame => absurd hsame (Nat.ne_of_lt (Nat.lt_succ_self _))⟩
  · -- no key goes with it
    rw [if_neg hholds]
    refine ⟨le_rfl, fun _ => ?_⟩
    have hkeys : r.keys.filter (fun _ key => key.lease ≠ lease) = r.keys := by
      ext path key
      rw [Std.ExtTreeMap.getElem?_filter', Option.filter_eq_some_iff]
      refine and_iff_left_of_imp fun hkey => ?_
      have hmem : (path, key) ∈ r.keys.toList :=
        Std.ExtTreeMap.mem_toList_iff_getElem?_eq_some.mpr hkey
      rw [Bool.not_eq_true, holds, List.any_eq_false] at hholds
      simpa using hholds _ hmem
    show (r.keys.filter _).map _ = _
    rw [hkeys]
    rfl

theorem rises_put (c : RegisterConfig) (request : ℕ) : r.Rises (r.put J c request) := by
  unfold put
  cases r.puts[request]? with
  | none => exact Rises.refl r
  | some sent =>
    dsimp only
    split_ifs
    · exact ⟨Nat.le_succ _, fun hsame => absurd hsame (Nat.ne_of_lt (Nat.lt_succ_self _))⟩
    · exact Rises.refl r

theorem rises_written : r.Rises { r with revision := r.revision + 1 } :=
  ⟨Nat.le_succ _, fun hsame => absurd hsame (Nat.ne_of_lt (Nat.lt_succ_self _))⟩

end Registry

theorem Moved.rises {J : JsonCodec} {c : RegisterConfig} {s : Registering} {n : Bytes}
    {e : RegistrantEvent} {registry : Registry} {node : Registrant}
    (h : Moved J c s n e registry node) : s.registry.Rises registry := by
  cases h with
  | granted lease => exact ⟨le_rfl, fun _ => rfl⟩
  | leaves reached _ _ hafter =>
    rcases hafter with rfl | rfl
    · exact .refl _
    · exact Registry.rises_lapse _
  | _ => exact .refl _

/-! ### A node and what is registered -/

/-- What a node has read, where a stage says more than the node. -/
def HasRead (r : Registry) (node : Registrant) : RegisterStage → Prop
  | .stopped | .keeping | .granting | .putting _ | .ranging _ => True
  | .ranged inPass held revision =>
    revision ≤ r.revision ∧ (inPass = true → node.begun ≤ revision) ∧
      ∀ values, held = some values → revision = r.revision → values = r.values
  | .leading | .waiting => node.answered = true → node.begun ≤ node.readAt

/-- A node reads what is registered: what it was told of before its last pass began it has read,
where that was answered. -/
structure Follows (c : RegisterConfig) (r : Registry) (name : Bytes) (node : Registrant) :
    Prop where
  told_le : node.told ≤ r.revision
  lines_le : ∀ lines, node.stream = some lines → ∀ line ∈ lines, line ≤ r.revision
  begun_le : node.begun ≤ r.revision
  told_begun : node.changed = false → node.told ≤ node.begun
  read_le : node.answered = true → node.readAt ≤ r.revision
  read : node.answered = true → node.readAt = r.revision →
    node.membership.members = readList J name (c.zone name) r.values
  stage : HasRead r node node.stage

variable {J} {c : RegisterConfig} {r after : Registry} {name : Bytes} {node : Registrant}

theorem HasRead.rises {stage : RegisterStage} (h : HasRead r node stage) (hr : r.Rises after) :
    HasRead after node stage := by
  cases stage with
  | ranged inPass held revision =>
    obtain ⟨hle, hbegun, hvalues⟩ := h
    refine ⟨hle.trans hr.le, hbegun, fun values hheld hsame => ?_⟩
    -- the range is of the newest revision only if that has not risen since
    have hsame' : revision = r.revision := le_antisymm hle (hsame ▸ hr.le)
    rw [hr.same (hsame'.symm.trans hsame)]
    exact hvalues values hheld hsame'
  | _ => exact h

/-- What a node has read depends on what it reads alone. -/
theorem HasRead.same {stage : RegisterStage} {other : Registrant} (h : HasRead r node stage)
    (hbegun : other.begun = node.begun) (hanswered : other.answered = node.answered)
    (hreadAt : other.readAt = node.readAt) : HasRead r other stage := by
  cases stage with
  | ranged inPass held revision =>
    show _ ∧ (_ → other.begun ≤ _) ∧ _
    rw [hbegun]
    exact h
  | waiting =>
    show _ → _
    rw [hbegun, hanswered, hreadAt]
    exact h
  | leading =>
    show _ → _
    rw [hbegun, hanswered, hreadAt]
    exact h
  | _ => trivial

theorem Follows.rises (h : Follows J c r name node) (hr : r.Rises after) :
    Follows J c after name node where
  told_le := h.told_le.trans hr.le
  lines_le lines hlines line hline := (h.lines_le lines hlines line hline).trans hr.le
  begun_le := h.begun_le.trans hr.le
  told_begun := h.told_begun
  read_le hanswered := (h.read_le hanswered).trans hr.le
  read hanswered hsame := by
    have hle := h.read_le hanswered
    have hsame' : node.readAt = r.revision := le_antisymm hle (hsame ▸ hr.le)
    rw [hr.same (hsame'.symm.trans hsame)]
    exact h.read hanswered hsame'
  stage := h.stage.rises hr

/-- A node in another stage, with all else as it was. -/
theorem Follows.goes (h : Follows J c r name node) {stage : RegisterStage}
    (hstage : HasRead r node stage) : Follows J c r name { node with stage } :=
  ⟨h.told_le, h.lines_le, h.begun_le, h.told_begun, h.read_le, h.read, hstage.same rfl rfl rfl⟩

theorem Follows.refresh (h : Follows J c r name node) :
    Follows J c r name (node.refresh r.revision) where
  told_le := h.told_le
  lines_le := h.lines_le
  begun_le := le_rfl
  told_begun _ := h.told_le
  read_le := h.read_le
  read := h.read
  stage := by
    unfold Registrant.refresh
    dsimp only
    split_ifs
    · trivial
    · trivial

/-- What a range answered is taken as the membership. -/
theorem Follows.takes (h : Follows J c r name node) {inPass : Bool}
    {held : Option (Std.ExtTreeMap Bytes Bytes)} {revision : ℕ} (now : ℕ)
    (reads : List (ℕ × Option (List Member)))
    (hstage : HasRead r node (.ranged inPass held revision)) :
    Follows J c r name
      { node.readMembers J c name now held revision with
        stage := if inPass then .leading else .stopped
        reads } := by
  obtain ⟨hle, hbegun, hvalues⟩ := hstage
  cases held with
  | none =>
    -- etcd did not answer, and what is known of the membership is as old as it was
    refine ⟨h.told_le, h.lines_le, h.begun_le, h.told_begun, ?_, ?_, ?_⟩
    · exact fun hanswered => absurd hanswered Bool.false_ne_true
    · exact fun hanswered => absurd hanswered Bool.false_ne_true
    · cases inPass with
      | false => trivial
      | true => exact fun hanswered => absurd hanswered Bool.false_ne_true
  | some registered =>
    refine ⟨h.told_le, h.lines_le, h.begun_le, h.told_begun, fun _ => hle, fun _ hsame => ?_, ?_⟩
    · show readList J name (c.zone name) registered = _
      rw [hvalues registered rfl hsame]
    · cases inPass with
      | false => trivial
      | true => exact fun _ => hbegun rfl

theorem Follows.hear (h : Follows J c r name node) : Follows J c r name node.hear := by
  unfold Registrant.hear
  cases hstream : node.stream with
  | none => exact h
  | some lines =>
    cases lines with
    | nil => exact h
    | cons line lines =>
      have hlines := h.lines_le _ hstream
      refine ⟨?_, ?_, h.begun_le, ?_, h.read_le, h.read, ?_⟩
      · exact max_le h.told_le (hlines line List.mem_cons_self)
      · rintro _ hsome other hother
        obtain rfl := Option.some.inj hsome
        exact hlines other (List.mem_cons_of_mem _ hother)
      · exact fun hchanged => absurd hchanged.symm Bool.false_ne_true
      · exact h.stage.same rfl rfl rfl

/-- A node with other lines on their way. -/
theorem Follows.hasLines (h : Follows J c r name node) {stream : Option (List ℕ)}
    (hlines : ∀ lines, stream = some lines → ∀ line ∈ lines, line ≤ r.revision) :
    Follows J c r name { node with stream } :=
  ⟨h.told_le, hlines, h.begun_le, h.told_begun, h.read_le, h.read, h.stage⟩

theorem follows_start (r : Registry) (now : ℕ) :
    Follows J c r name { unledSince := some now, reads := [(now, none)] } where
  told_le := Nat.zero_le _
  lines_le _ hnone := by cases hnone
  begun_le := Nat.zero_le _
  told_begun _ := le_rfl
  read_le hanswered := absurd hanswered Bool.false_ne_true
  read hanswered := absurd hanswered Bool.false_ne_true
  stage := trivial

theorem Follows.moved {s : Registering} {n : Bytes} {e : RegistrantEvent}
    (h : Follows J c s.registry n (s.nodes n)) (hmoved : Moved J c s n e r node) :
    Follows J c r n node := by
  have hrises := hmoved.rises
  have hstage := h.stage
  cases hmoved with
  | starts => exact h.refresh
  | discovers => exact h.goes trivial
  | wakes =>
    -- the pass begins at a revision no line has told past
    have hwoken : Follows J c s.registry n
        ({ s.nodes n with changed := false }.refresh s.registry.revision) :=
      ⟨h.told_le, h.lines_le, le_rfl, fun _ => h.told_le, h.read_le, h.read, h.refresh.stage⟩
    exact hwoken
  | kept => exact h.goes trivial
  | lost => exact h.goes trivial
  | refused =>
    exact ⟨h.told_le, h.lines_le, h.begun_le, h.told_begun, h.read_le, h.read, trivial⟩
  | granted lease =>
    -- no key has changed yet: the put is only sent
    have hgranted := h.rises hrises
    exact ⟨hgranted.told_le, hgranted.lines_le, hgranted.begun_le, hgranted.told_begun,
      hgranted.read_le, hgranted.read, trivial⟩
  | puts =>
    exact ⟨h.told_le, h.lines_le, h.begun_le, h.told_begun, h.read_le, h.read, trivial⟩
  | ranges reached inPass hat =>
    -- the range reads what is registered as it is answered, after the pass began
    refine h.goes ⟨le_rfl, fun _ => h.begun_le, fun values hvalues _ => ?_⟩
    cases reached with
    | false => cases hvalues
    | true => exact (Option.some.inj hvalues).symm
  | takes inPass held revision hat =>
    rw [hat] at hstage
    exact h.takes s.clock _ hstage
  | leads hat =>
    rw [hat] at hstage
    exact ⟨h.told_le, h.lines_le, h.begun_le, h.told_begun, h.read_le, h.read, hstage⟩
  | leaves =>
    -- the lease that is revoked may have taken keys with it
    have hleft := h.rises hrises
    refine ⟨hleft.told_le, ?_, hleft.begun_le, hleft.told_begun, hleft.read_le, hleft.read, trivial⟩
    exact fun lines hnone => absurd hnone.symm (Option.some_ne_none _)
  | dies => exact follows_start _ _
  | watches upTo hle =>
    refine h.hasLines fun lines hlines line hline => ?_
    obtain rfl := Option.some.inj hlines
    rw [List.mem_singleton.mp hline]
    exact hle
  | reports upTo lines hstream hle =>
    refine h.hasLines fun others hothers line hline => ?_
    obtain rfl := Option.some.inj hothers
    rcases List.mem_append.mp hline with hline | hline
    · exact h.lines_le lines hstream line hline
    · rw [List.mem_singleton.mp hline]
      exact hle
  | hears => exact h.hear
  | cut => exact h.hasLines fun lines hnone => absurd hnone.symm (Option.some_ne_none _)

namespace Registering

/-- Every node reads what is registered. -/
def Followed (J : JsonCodec) (c : RegisterConfig) (s : Registering) : Prop :=
  ∀ n, Follows J c s.registry n (s.nodes n)

theorem Followed.step {s : Registering} (h : s.Followed J c) (e : RegisterEvent) :
    (s.step J c e).Followed J c := by
  cases e with
  | passes time => exact h
  | lapses lease => exact fun m => (h m).rises (Registry.rises_lapse lease)
  | written => exact fun m => (h m).rises Registry.rises_written
  | carries request => exact fun m => (h m).rises (Registry.rises_put J c request)
  | «at» n e =>
    refine turn_rule h fun registry node hmoved => ⟨(h n).moved hmoved, fun m _ => ?_⟩
    exact (h m).rises hmoved.rises

theorem followed_run (J : JsonCodec) (c : RegisterConfig) (es : List RegisterEvent) :
    (run (step J c) {} es).Followed J c :=
  (throughout_true ({} : Registering) es).invariant (I := Followed J c)
    (fun _ e hs _ => hs.step e) fun _ => follows_start _ 0

/-- A node that waits for the tick and nothing else: etcd answered the last range, and a watch has
told it of all that changed, which a pass began after. -/
structure Rests (s : Registering) (n : Bytes) : Prop where
  stage : (s.nodes n).stage = .waiting
  answered : (s.nodes n).answered = true
  changed : (s.nodes n).changed = false
  told : (s.nodes n).told = s.registry.revision

instance (s : Registering) (n : Bytes) : Decidable (s.Rests n) :=
  decidable_of_iff ((s.nodes n).stage.isWaiting = true ∧ (s.nodes n).answered = true ∧
      (s.nodes n).changed = false ∧ (s.nodes n).told = s.registry.revision)
    ⟨fun h => ⟨RegisterStage.isWaiting_iff.mp h.1, h.2.1, h.2.2.1, h.2.2.2⟩,
      fun h => ⟨RegisterStage.isWaiting_iff.mpr h.stage, h.answered, h.changed, h.told⟩⟩

theorem Followed.members {s : Registering} (h : s.Followed J c) {n : Bytes} (hn : s.Rests n) :
    (s.nodes n).membership.members = readList J n (c.zone n) s.registry.values := by
  have hf := h n
  have hread : (s.nodes n).begun ≤ (s.nodes n).readAt := by
    have hstage := hf.stage
    rw [hn.stage] at hstage
    exact hstage hn.answered
  -- all there is was told, and read after it was told
  refine hf.read hn.answered (le_antisymm (hf.read_le hn.answered) ?_)
  calc s.registry.revision = (s.nodes n).told := hn.told.symm
    _ ≤ (s.nodes n).begun := hf.told_begun hn.changed
    _ ≤ (s.nodes n).readAt := hread

end Registering

/-! ### What the keys say -/

namespace RegisterConfig

/-- What a node of this name is listed as. -/
def member (node : Bytes) : Member := ⟨node, c.zone node⟩

/-- The name and the zone can be written as they are. -/
def IsNamed (node : Bytes) : Prop := Utf8.valid node = true ∧ Utf8.valid (c.zone node) = true

instance (node : Bytes) : Decidable (c.IsNamed node) :=
  inferInstanceAs (Decidable (Utf8.valid node = true ∧ Utf8.valid (c.zone node) = true))

end RegisterConfig

theorem canonical_registrationJson (node zone : Bytes) :
    (registrationJson node zone).Canonical := by
  refine ⟨⟨?_, trivial, trivial, trivial⟩, ?_⟩
  · show [ascii "node", ascii "zone"].Nodup
    decide
  · show max 0 (max 0 0) + 1 ≤ Json.maxDepth
    decide

/-- A node's value says its name and its zone. -/
theorem readMember_value {node : Bytes} (h : c.IsNamed node) :
    readMember J (c.value J node) = c.member node := by
  have hutf8 : (registrationJson node (c.zone node)).utf8 = true := by
    show (_ && (Utf8.valid node) && (_ && Utf8.valid (c.zone node) && true)) = true
    rw [h.1, h.2]
    decide
  have hparse : J.parse (c.value J node) = some (registrationJson node (c.zone node)) := by
    rw [RegisterConfig.value, J.parse_serialize (canonical_registrationJson _ _), hutf8]
    rfl
  unfold readMember
  rw [hparse]
  rfl

/-- Every key is a node's, and has the node's value. -/
def Registry.Named (J : JsonCodec) (c : RegisterConfig) (r : Registry) : Prop :=
  ∀ path key, r.keys[path]? = some key → ∃ m, path = c.path m ∧ key.value = c.value J m

namespace Registry

theorem path_inj {m other : Bytes} (h : c.path m = c.path other) : m = other :=
  List.append_cancel_left h

theorem Named.lapse (h : r.Named J c) (lease : ℤ) : (r.lapse lease).Named J c := by
  intro path key hkey
  have hfiltered : (r.keys.filter fun _ key => key.lease ≠ lease)[path]? = some key := hkey
  rw [Std.ExtTreeMap.getElem?_filter', Option.filter_eq_some_iff] at hfiltered
  exact h path key hfiltered.1

theorem Named.put (h : r.Named J c) (request : ℕ) : (r.put J c request).Named J c := by
  unfold Registry.put
  cases r.puts[request]? with
  | none => exact h
  | some sent =>
    dsimp only
    split_ifs
    · intro path key hkey
      have hinsert : (r.keys.insert (c.path sent.node) ⟨c.value J sent.node, sent.lease⟩)[path]? =
        some key := hkey
      rw [Std.ExtTreeMap.getElem?_insert] at hinsert
      split_ifs at hinsert with hpath
      · -- the key that is written is the node's that sent the put
        obtain rfl := Option.some.inj hinsert
        exact ⟨sent.node, (by simpa using hpath : c.path sent.node = path).symm, rfl⟩
      · exact h path key hinsert
    · exact h

theorem Named.moved {s : Registering} {n : Bytes} {e : RegistrantEvent}
    (h : s.registry.Named J c) (hmoved : Moved J c s n e r node) : r.Named J c := by
  cases hmoved with
  | granted lease => exact h
  | leaves reached _ _ hafter =>
    rcases hafter with rfl | rfl
    · exact h
    · exact h.lapse _
  | _ => exact h

end Registry

namespace Registering

theorem named_step {s : Registering} (h : s.registry.Named J c) (e : RegisterEvent) :
    (s.step J c e).registry.Named J c := by
  cases e with
  | passes time => exact h
  | lapses lease => exact h.lapse lease
  | written => exact h
  | carries request => exact h.put request
  | «at» n e =>
    refine turn_rule (P := fun r _ _ => r.Named J c) (fun _ => h) (fun registry node hmoved => ?_) n
    exact ⟨h.moved hmoved, fun _ _ => h.moved hmoved⟩

theorem named_run (J : JsonCodec) (c : RegisterConfig) (es : List RegisterEvent) :
    (run (step J c) {} es).registry.Named J c := by
  refine (throughout_true ({} : Registering) es).invariant
    (I := fun s => s.registry.Named J c) (fun _ e hs _ => named_step hs e) ?_
  intro path key hkey
  have hempty : (∅ : Std.ExtTreeMap Bytes NodeKey)[path]? = some key := hkey
  rw [Std.ExtTreeMap.getElem?_empty] at hempty
  cases hempty

/-- A node's key is there. -/
def IsRegistered (c : RegisterConfig) (s : Registering) (m : Bytes) : Prop :=
  (s.registry.keys[c.path m]?).isSome = true

instance (c : RegisterConfig) (s : Registering) (m : Bytes) : Decidable (s.IsRegistered c m) :=
  inferInstanceAs (Decidable ((s.registry.keys[c.path m]?).isSome = true))

/-- What is read back of the keys is what the registered nodes are listed as. -/
theorem mem_values {s : Registering} (h : s.registry.Named J c) {value : Bytes} :
    value ∈ s.registry.values.toList.map Prod.snd ↔
      ∃ m, s.IsRegistered c m ∧ value = c.value J m := by
  rw [Registry.values, Std.ExtTreeMap.toList_map, List.map_map, List.mem_map]
  constructor
  · rintro ⟨⟨path, key⟩, hmem, rfl⟩
    have hkey := Std.ExtTreeMap.mem_toList_iff_getElem?_eq_some.mp hmem
    obtain ⟨m, rfl, hvalue⟩ := h path key hkey
    refine ⟨m, ?_, hvalue⟩
    rw [IsRegistered, hkey]
    rfl
  · rintro ⟨m, hm, rfl⟩
    obtain ⟨key, hkey⟩ := Option.isSome_iff_exists.mp hm
    obtain ⟨other, hpath, hvalue⟩ := h _ key hkey
    rw [Registry.path_inj hpath]
    exact ⟨_, Std.ExtTreeMap.mem_toList_iff_getElem?_eq_some.mpr hkey, hvalue⟩

end Registering

theorem mem_readList {zone : Bytes} {registered : Std.ExtTreeMap Bytes Bytes} {read : Member} :
    read ∈ readList J name zone registered ↔
      (∃ value ∈ registered.toList.map Prod.snd, read = readMember J value) ∨
        read = ⟨name, zone⟩ ∧
          ∀ value ∈ registered.toList.map Prod.snd, (readMember J value).node ≠ name := by
  unfold readList
  dsimp only
  rw [List.mem_insertionSort]
  have hnames : read ∈ registered.toList.map (fun held => readMember J held.2) ↔
      ∃ value ∈ registered.toList.map Prod.snd, read = readMember J value := by
    constructor
    · intro hread
      obtain ⟨held, hheld, rfl⟩ := List.mem_map.mp hread
      exact ⟨held.2, List.mem_map_of_mem hheld, rfl⟩
    · rintro ⟨value, hvalue, rfl⟩
      obtain ⟨held, hheld, rfl⟩ := List.mem_map.mp hvalue
      exact List.mem_map.mpr ⟨held, hheld, rfl⟩
  split_ifs with hfound
  · -- the node is among those that were read, and is not put in again
    rw [hnames]
    refine (or_iff_left ?_).symm
    rintro ⟨-, hnone⟩
    simp only [List.any_map, List.any_eq_true, Function.comp, decide_eq_true_eq] at hfound
    obtain ⟨held, hheld, hname⟩ := hfound
    exact hnone _ (List.mem_map_of_mem hheld) hname
  · rw [List.mem_append, List.mem_singleton, hnames]
    refine or_congr_right (and_iff_left ?_).symm
    intro value hvalue hname
    obtain ⟨held, hheld, rfl⟩ := List.mem_map.mp hvalue
    refine hfound (List.any_eq_true.mpr ⟨readMember J held.2, List.mem_map_of_mem hheld, ?_⟩)
    exact decide_eq_true hname

/-- Who is found in the list is listed with all the others, whoever reads it. -/
theorem readList_of_found {zone value : Bytes} {registered : Std.ExtTreeMap Bytes Bytes}
    (hvalue : value ∈ registered.toList.map Prod.snd) (hname : (readMember J value).node = name) :
    readList J name zone registered =
      (registered.toList.map fun held => readMember J held.2).insertionSort fun left right =>
        ¬right.node < left.node := by
  unfold readList
  dsimp only
  obtain ⟨held, hheld, rfl⟩ := List.mem_map.mp hvalue
  rw [if_pos]
  rw [List.any_map, List.any_eq_true]
  exact ⟨held, hheld, decide_eq_true hname⟩

namespace Registering

/-- **Nodes at rest agree on who there is.** In every run of a cluster, a node that waits for the
tick alone lists what is registered and itself; and two such nodes that are registered list the
same. -/
theorem resting_nodes_agree (J : JsonCodec) (c : RegisterConfig) (es : List RegisterEvent) :
    let s := run (step J c) {} es
    (∀ n, s.Rests n →
        (s.nodes n).membership.members = readList J n (c.zone n) s.registry.values) ∧
      ((∀ m, s.IsRegistered c m → c.IsNamed m) → ∀ n, s.Rests n → ∀ read,
        read ∈ (s.nodes n).membership.members ↔
          read = c.member n ∨ s.IsRegistered c read.node ∧ read = c.member read.node) ∧
      ∀ n m, s.Rests n → s.Rests m → s.IsRegistered c n → s.IsRegistered c m →
        c.IsNamed n → c.IsNamed m →
        (s.nodes n).membership.members = (s.nodes m).membership.members := by
  intro s
  have hlist : ∀ n, s.Rests n →
      (s.nodes n).membership.members = readList J n (c.zone n) s.registry.values :=
    fun n hn => (followed_run J c es).members hn
  have hvalues : ∀ {value : Bytes}, value ∈ s.registry.values.toList.map Prod.snd ↔
      ∃ m, s.IsRegistered c m ∧ value = c.value J m := mem_values (named_run J c es)
  refine ⟨hlist, fun hnamed n hn read => ?_,
    fun n m hn hm hregistered hregistered' hnamed hnamed' => ?_⟩
  · rw [hlist n hn, mem_readList]
    constructor
    · rintro (⟨value, hvalue, rfl⟩ | ⟨rfl, -⟩)
      · obtain ⟨m, hm, rfl⟩ := hvalues.mp hvalue
        rw [readMember_value (hnamed m hm)]
        exact Or.inr ⟨hm, rfl⟩
      · exact Or.inl rfl
    · rintro (rfl | ⟨hm, hread⟩)
      · by_cases hself : s.IsRegistered c n
        · refine Or.inl ⟨c.value J n, hvalues.mpr ⟨n, hself, rfl⟩, ?_⟩
          rw [readMember_value (hnamed n hself)]
        · refine Or.inr ⟨rfl, fun value hvalue hname => hself ?_⟩
          obtain ⟨m, hm, rfl⟩ := hvalues.mp hvalue
          rw [readMember_value (hnamed m hm)] at hname
          rwa [show n = m from hname.symm]
      · refine Or.inl ⟨c.value J read.node, hvalues.mpr ⟨_, hm, rfl⟩, ?_⟩
        rw [readMember_value (hnamed _ hm)]
        exact hread
  · -- each of them finds itself in the list, which is then the same for both
    have hfound : ∀ node, s.IsRegistered c node → c.IsNamed node →
        c.value J node ∈ s.registry.values.toList.map Prod.snd ∧
          (readMember J (c.value J node)).node = node := fun node hnode hname =>
      ⟨hvalues.mpr ⟨node, hnode, rfl⟩, by rw [readMember_value hname]; rfl⟩
    obtain ⟨hvalue, hname⟩ := hfound n hregistered hnamed
    obtain ⟨hvalue', hname'⟩ := hfound m hregistered' hnamed'
    rw [hlist n hn, hlist m hm, readList_of_found hvalue hname, readList_of_found hvalue' hname']

/-- The first pass of a node: it is granted the lease, and its put is carried out. -/
def firstPass (n : Bytes) (lease : ℤ) (request : ℕ) : List RegisterEvent :=
  [.at n .starts, .at n (.grants (some lease)), .carries request, .at n (.puts true),
    .at n (.ranges true), .at n .takes, .at n .leads]

/-- A watch tells a node of all that has changed, and it goes through a pass. -/
def passTold (n : Bytes) (upTo : ℕ) : List RegisterEvent :=
  [.at n (.watches upTo), .at n .hears, .at n .wakes, .at n (.keeps true), .at n (.ranges true),
    .at n .takes, .at n .leads]

/-- Two nodes register, and then each is told of both. -/
def twoNodes : List RegisterEvent :=
  firstPass (ascii "a") 1 0 ++ firstPass (ascii "b") 2 1 ++ passTold (ascii "a") 2 ++
    passTold (ascii "b") 2

theorem resting_nodes_agree_pair :
    let c : RegisterConfig := { zone := fun _ => [] }
    let s := run (step JsonText.codec c) {} twoNodes
    s.Rests (ascii "a") ∧ s.Rests (ascii "b") ∧
      (s.nodes (ascii "a")).membership.members = (s.nodes (ascii "b")).membership.members := by
  intro c
  have hrests : (run (step JsonText.codec c) {} twoNodes).Rests (ascii "a") ∧
      (run (step JsonText.codec c) {} twoNodes).Rests (ascii "b") := by
    decide +kernel
  have hregistered : (run (step JsonText.codec c) {} twoNodes).IsRegistered c (ascii "a") ∧
      (run (step JsonText.codec c) {} twoNodes).IsRegistered c (ascii "b") := by
    decide +kernel
  have hnamed : c.IsNamed (ascii "a") ∧ c.IsNamed (ascii "b") := by decide +kernel
  obtain ⟨-, -, hagree⟩ := resting_nodes_agree JsonText.codec c twoNodes
  -- what the run comes to is not looked into again
  generalize run (step JsonText.codec c) {} twoNodes = s at *
  exact ⟨hrests.1, hrests.2, hagree _ _ hrests.1 hrests.2 hregistered.1 hregistered.2 hnamed.1
    hnamed.2⟩

end Registering

/-! ### How long a node stands unled -/

/-- What a read says of a node that no cluster leads: etcd did not answer, or listed no other. -/
def findsUnled (read : ℕ × Option (List Member)) : Bool := read.2.all (·.length < 2)

/-- The reads since the last one that listed another node. -/
def Registrant.unledReads (node : Registrant) : List (ℕ × Option (List Member)) :=
  node.reads.takeWhile findsUnled

/-- The clock of a node started with the first of the reads since it was last led. -/
structure Timed (now : ℕ) (node : Registrant) : Prop where
  since : node.unledSince = node.unledReads.getLast?.map Prod.fst
  past : ∀ read ∈ node.reads, read.1 ≤ now
  sorted : node.reads.Pairwise fun later earlier => earlier.1 ≤ later.1

theorem Timed.same {now : ℕ} {other : Registrant} (h : Timed now node)
    (hsince : other.unledSince = node.unledSince) (hreads : other.reads = node.reads) :
    Timed now other := by
  refine ⟨?_, ?_, ?_⟩
  · rw [hsince, Registrant.unledReads, hreads]
    exact h.since
  · rw [hreads]
    exact h.past
  · rw [hreads]
    exact h.sorted

theorem timed_start (now : ℕ) : Timed now { unledSince := some now, reads := [(now, none)] } where
  since := rfl
  past read h := by rw [List.mem_singleton.mp h]
  sorted := List.pairwise_singleton _ _

/-- A read that is told to the clock by what it found leaves the clock in step with the reads. -/
theorem Timed.read {now : ℕ} {other : Registrant} (h : Timed now node)
    {names : Option (List Member)}
    (hsince : other.unledSince = (node.standUnled now (findsUnled (now, names))).unledSince)
    (hreads : other.reads = (now, names) :: node.reads) : Timed now other := by
  have hpast : ∀ read ∈ other.reads, read.1 ≤ now := by
    intro read hread
    rw [hreads] at hread
    rcases List.mem_cons.mp hread with rfl | hread
    · exact le_rfl
    · exact h.past read hread
  refine ⟨?_, hpast, by rw [hreads]; exact List.pairwise_cons.mpr ⟨h.past, h.sorted⟩⟩
  have hbefore := h.since
  rw [Registrant.unledReads] at hbefore
  rw [hsince, Registrant.unledReads, hreads]
  unfold Registrant.standUnled
  dsimp only
  cases hfinds : findsUnled (now, names) with
  | false =>
    -- the node is led, and nothing is left of how long it was not
    rw [List.takeWhile_cons_of_neg (by rw [hfinds]; exact Bool.false_ne_true)]
    rfl
  | true =>
    rw [List.takeWhile_cons_of_pos hfinds, List.getLast?_cons, hbefore]
    cases (node.reads.takeWhile findsUnled).getLast? <;> rfl

theorem Timed.moved {s : Registering} {n : Bytes} {e : RegistrantEvent}
    (h : Timed s.clock (s.nodes n)) (hmoved : Moved J c s n e r node) : Timed s.clock node := by
  cases hmoved with
  | takes inPass held revision =>
    cases held with
    | none => exact h.read rfl rfl
    | some registered => exact h.read rfl rfl
  | dies => exact timed_start _
  | hears =>
    unfold Registrant.hear
    split
    · exact h
    · exact h
    · exact h.same rfl rfl
  | _ => exact h.same rfl rfl

namespace Registering

theorem timed_step {s : Registering} (h : ∀ n, Timed s.clock (s.nodes n)) (e : RegisterEvent) :
    ∀ n, Timed (s.step J c e).clock ((s.step J c e).nodes n) := by
  cases e with
  | passes time =>
    intro m
    exact ⟨(h m).since, fun read hread => ((h m).past read hread).trans (Nat.le_add_right _ _),
      (h m).sorted⟩
  | lapses lease => exact h
  | written => exact h
  | carries request => exact h
  | «at» n e =>
    -- a turn takes no time
    have hclock : (s.step J c (.at n e)).clock = s.clock := by
      show (s.turn J c n e).clock = s.clock
      rcases turn_cases J c s n e with hsame | ⟨registry, node, -, hturn⟩
      · rw [hsame]
      · rw [hturn]
        rfl
    rw [hclock]
    refine turn_rule (P := fun _ _ node => Timed s.clock node) h fun registry node hmoved => ?_
    exact ⟨(h n).moved hmoved, fun m _ => h m⟩

/-- **When a node reports that it stands unled**: exactly if, longer than a lease ago, it was
constructed or a read of the membership was not answered or listed no other node, and none has
listed another since. -/
theorem unled_iff (J : JsonCodec) (c : RegisterConfig) (es : List RegisterEvent) (n : Bytes) :
    let s := run (step J c) {} es
    (s.nodes n).isUnled c s.clock = true ↔
      ∃ read ∈ (s.nodes n).unledReads, c.leaseSeconds * 1000000000 < s.clock - read.1 := by
  intro s
  have h : Timed s.clock (s.nodes n) :=
    (throughout_true ({} : Registering) es).invariant
      (I := fun s => ∀ n, Timed s.clock (s.nodes n)) (fun _ e hs _ => timed_step hs e)
      (fun _ => timed_start 0) n
  unfold Registrant.isUnled
  rw [h.since]
  cases hlast : (s.nodes n).unledReads.getLast? with
  | none =>
    rw [List.getLast?_eq_none_iff.mp hlast]
    simp
  | some first =>
    show decide _ = true ↔ _
    rw [decide_eq_true_iff]
    constructor
    · intro hlong
      exact ⟨first, List.mem_of_getLast? hlast, hlong⟩
    · rintro ⟨read, hread, hlong⟩
      -- the first of the reads was no later than any other
      have hle : first.1 ≤ read.1 := by
        obtain ⟨before, hbefore⟩ := List.getLast?_eq_some_iff.mp hlast
        have hsorted := h.sorted.sublist (List.takeWhile_sublist findsUnled)
        rw [show (s.nodes n).reads.takeWhile findsUnled = before ++ [first] from hbefore] at hsorted
        rw [hbefore] at hread
        rcases List.mem_append.mp hread with hread | hread
        · exact (List.pairwise_append.mp hsorted).2.2 read hread first List.mem_cons_self
        · rw [List.mem_singleton.mp hread]
      omega

end Registering

end AsyncDatabase
