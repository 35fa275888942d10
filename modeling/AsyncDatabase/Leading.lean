import AsyncDatabase.Leaders

/-!
# Claims over a cluster

The claims of all nodes together (`cluster/etcd_cluster.cpp`), and etcd as `create` and `remove` ask
it (`etcd/etcd_client.cpp`). `read_leaders` and `leader` are cut wherever a call goes out or another
thread may come between, over the pieces of `Claimant`, and a transaction is carried out whenever
etcd likes and as often as it is sent. Where nothing comes between them the pieces are
`Claimant.readLeaders` (`passes_undisturbed`) and `Claimant.leader` (`leader_undisturbed`).
-/

namespace AsyncDatabase

open Bytes (ascii)
open Machine

/-- A leader's key in etcd: its value and the revision it was created at. -/
structure LeaderKey where
  holder : Bytes
  created : ℤ
  deriving DecidableEq

/-- What etcd answers a transaction. -/
inductive ClaimAnswer where
  | claim (claimed : EtcdClaim)
  | removed (gone : Bool)

/-- A transaction that was sent, with what it was answered each time it was carried out. -/
structure ClaimRequest where
  node : Bytes
  call : ClaimCall
  answers : List ClaimAnswer := []

/-- What etcd keeps of the leaders' keys, beside the transactions sent to it. -/
structure ClaimStore where
  revision : ℤ := 0
  keys : Partition → Option LeaderKey := fun _ => none
  requests : List ClaimRequest := []
  /-- Every claim that was ever made. -/
  made : List (Partition × LeaderKey) := []

namespace ClaimStore

/-- The transaction of `create`. -/
def create (s : ClaimStore) (node : Bytes) (partition : Partition) : ClaimAnswer × ClaimStore :=
  match s.keys partition with
  | some key => (.claim { holder := key.holder, revision := key.created }, s)
  | none =>
    let key : LeaderKey := ⟨node, s.revision + 1⟩
    (.claim { held := true, holder := node, revision := key.created },
      { s with
        revision := key.created
        keys := Function.update s.keys partition (some key)
        made := (partition, key) :: s.made })

/-- A key that goes, with a lease or by a transaction. -/
def expire (s : ClaimStore) (partition : Partition) : ClaimStore :=
  { s with revision := s.revision + 1, keys := Function.update s.keys partition none }

/-- The transaction of `remove`. -/
def remove (s : ClaimStore) (node : Bytes) (partition : Partition) : ClaimAnswer × ClaimStore :=
  if (s.keys partition).any fun key => key.holder = node then (.removed true, s.expire partition)
  else (.removed false, s)

def carryOut (s : ClaimStore) (node : Bytes) : ClaimCall → ClaimAnswer × ClaimStore
  | .create partition => s.create node partition
  | .remove partition => s.remove node partition

/-- A transaction is carried out, for the first time or again. -/
def apply (s : ClaimStore) (request : ℕ) : ClaimStore :=
  match s.requests[request]? with
  | none => s
  | some sent =>
    let (answer, s) := s.carryOut sent.node sent.call
    { s with requests := s.requests.set request { sent with answers := sent.answers ++ [answer] } }

/-- What a caller hears of its transaction: one of the answers there are, or none. -/
def heard (s : ClaimStore) (request : ℕ) (answer : Option ℕ) : Option ClaimAnswer := do
  let sent ← s.requests[request]?
  sent.answers[← answer]?

end ClaimStore

/-- The claim of an answer. -/
def ClaimAnswer.claimed : Option ClaimAnswer → Option EtcdClaim
  | some (.claim claimed) => some claimed
  | _ => none

def ClaimAnswer.gone : Option ClaimAnswer → Bool
  | some (.removed gone) => gone
  | _ => false

/-- A thread in `leader`, where it stops. -/
inductive Asking where
  | idle
  | getting (partition : Partition) (registered : List Member)
  | got (partition : Partition) (registered : List Member) (found : Option LeaderKey)
  | creating (partition : Partition) (request : ℕ)
  | listing (partition : Partition) (claimed : EtcdClaim)

/-- A pass of `read_leaders` under way. -/
structure LeadingPass where
  registered : List Member
  lease : ℤ
  now : ℤ
  keys : Partition → Option LeaderKey
  /-- The partitions it has not come to. -/
  left : List Partition
  w : Claimant.Walk
  /-- The claim each leadership it knows was read or made with. -/
  sources : Partition → Option LeaderKey := fun _ => none
  /-- The transaction it waits for. -/
  request : Option ℕ := none

/-- What a turn is given of the membership and of its transaction's answer. -/
def LeadingPass.given (pass : LeadingPass) (answer : Option ClaimAnswer) : ClaimPass where
  registered := pass.registered
  lease := pass.lease
  range := none
  create _ := ClaimAnswer.claimed answer
  remove _ := ClaimAnswer.gone answer

/-- A node, with the claims its list was put together from and the terms it has been told since it
started. -/
structure LeadingNode where
  claimant : Claimant := {}
  pass : Option LeadingPass := none
  asking : ℕ → Asking := fun _ => .idle
  sources : Partition → Option LeaderKey := fun _ => none
  told : Partition → List ℤ := fun _ => []

/-- What `leader` answered, and by which claim. -/
structure LedAnswer where
  node : Bytes
  partition : Partition
  led : Leadership
  source : Option LeaderKey

/-- The nodes and etcd, with every answer of `leader`. -/
structure Leading where
  store : ClaimStore := {}
  nodes : Bytes → LeadingNode := fun _ => {}
  answers : List LedAnswer := []

/-- What a node does next, with what its surroundings give it. -/
inductive ClaimantEvent where
  | range (registered : List Member) (lease : ℤ) (now : ℤ) (reached : Bool)
  | turn
  | turned (answer : Option ℕ)
  | close
  | ask (thread : ℕ) (key : Bytes) (answered : Bool) (registered : List Member)
  | get (thread : ℕ) (reached : Bool)
  | resolve (thread : ℕ) (lease : ℤ)
  | created (thread : ℕ) (answer : Option ℕ)
  | list (thread : ℕ)
  | accept (key : Bytes) (term : ℤ)
  | restore (applied : PartitionTerms)
  | restart

inductive LeadingEvent where
  | expire (partition : Partition)
  /-- Anything else is written to etcd. -/
  | written
  | apply (request : ℕ)
  | at (node : Bytes) (event : ClaimantEvent)

/-- The configuration of one node of a cluster. -/
def ClaimConfig.named (c : ClaimConfig) (node : Bytes) : ClaimConfig := { c with node }

/-- The transaction a turn of a pass sends, of what holds the partition. -/
def ClaimConfig.callOf (c : ClaimConfig) (releasing : Partition → Option ℤ) (now : ℤ)
    (registered : List Member) (claims : ℕ) (partition : Partition) :
    Option Bytes → Option ClaimCall
  | some holder =>
    if holder = c.node ∧ c.shouldLead registered partition = false ∧
        c.tick ≤ now - (releasing partition).getD now ∧ claims < c.claimsPerRefresh then
      some (.remove partition)
    else none
  | none =>
    if c.claimsPerRefresh ≤ claims ∨ c.shouldLead registered partition = false then none
    else some (.create partition)

namespace LeadingNode

def asks (node : LeadingNode) (thread : ℕ) (stage : Asking) : LeadingNode :=
  { node with asking := Function.update node.asking thread stage }

def tells (node : LeadingNode) (partition : Partition) (term : ℤ) : LeadingNode :=
  { node with told := Function.update node.told partition (term :: node.told partition) }

/-- What a create was answered with is told to the node. -/
def hears (node : LeadingNode) (partition : Partition) (claimed : EtcdClaim) : LeadingNode :=
  if claimed.held then node.tells partition claimed.revision else node

/-- A turn of a pass comes to its end, with what its transaction was answered. The terms it reads
are the node's as they are by then. -/
def advance (c : ClaimConfig) (node : LeadingNode) (pass : LeadingPass) (partition : Partition)
    (rest : List Partition) (answer : Option ClaimAnswer) : LeadingNode :=
  let w := { pass.w with terms := node.claimant.terms }
  match pass.keys partition with
  | some key =>
    let w := Claimant.held c node.claimant pass.now (pass.given answer) w partition key.holder
    { node with
      pass := some { pass with
        left := rest, w, request := none
        sources := Function.update pass.sources partition (some key) } }
  | none =>
    let w := Claimant.unheld c (pass.given answer) w partition
    let claimed := ClaimAnswer.claimed answer
    { (claimed.elim node (node.hears partition)) with
      claimant := { node.claimant with terms := w.terms }
      pass := some { pass with
        left := rest, w, request := none
        sources := Function.update pass.sources partition
          (claimed.map fun claimed => ⟨claimed.holder, claimed.revision⟩) } }

/-- The end of a pass. -/
def close (node : LeadingNode) (pass : LeadingPass) : LeadingNode :=
  { node with
    claimant := { node.claimant with leaderList := pass.w.known, releasing := pass.w.toRelease }
    sources := pass.sources
    pass := none }

end LeadingNode

namespace Leading

def put (s : Leading) (n : Bytes) (node : LeadingNode) : Leading :=
  { s with nodes := Function.update s.nodes n node }

/-- A node sends a transaction, which is the last of those sent. -/
def sends (s : Leading) (n : Bytes) (call : ClaimCall) : Leading :=
  { s with store := { s.store with requests := s.store.requests ++ [{ node := n, call }] } }

def replies (s : Leading) (n : Bytes) (partition : Partition) (led : Leadership)
    (source : Option LeaderKey) : Leading :=
  { s with answers := ⟨n, partition, led, source⟩ :: s.answers }

/-- A thread in `leader` goes on to another stage. -/
def goes (s : Leading) (n : Bytes) (thread : ℕ) (stage : Asking) : Leading :=
  s.put n ((s.nodes n).asks thread stage)

/-- A thread in `leader` returns. -/
def returns (s : Leading) (n : Bytes) (thread : ℕ) (partition : Partition) (led : Leadership)
    (source : Option LeaderKey) : Leading :=
  (s.goes n thread .idle).replies n partition led source

variable (c : ClaimConfig)

/-- `read_leaders` up to the first turn of its loop. -/
def range (s : Leading) (n : Bytes) (registered : List Member) (lease now : ℤ) (reached : Bool) :
    Leading :=
  let node := s.nodes n
  if node.pass.isSome ∨ registered.length < 2 ∨ lease = 0 then s
  else if reached then
    s.put n { node with
      pass := some
        { registered, lease, now
          keys := s.store.keys
          left := Claimant.walkOrder (c.named n)
          w := { terms := node.claimant.terms } } }
  else s.put n { node with claimant := { node.claimant with leaderList := fun _ => none } }

/-- A turn of the loop, up to the transaction it sends if it sends one. -/
def turn (s : Leading) (n : Bytes) : Leading :=
  let node := s.nodes n
  match node.pass with
  | none => s
  | some pass =>
    match pass.request, pass.left with
    | none, partition :: rest =>
      match (c.named n).callOf node.claimant.releasing pass.now pass.registered pass.w.claims
          partition ((pass.keys partition).map LeaderKey.holder) with
      | some call =>
        let waiting := { pass with request := some s.store.requests.length }
        (s.put n { node with pass := some waiting }).sends n call
      | none => s.put n (node.advance (c.named n) pass partition rest none)
    | _, _ => s

/-- The rest of a turn, from the answer of its transaction on. -/
def turned (s : Leading) (n : Bytes) (answer : Option ℕ) : Leading :=
  let node := s.nodes n
  match node.pass with
  | none => s
  | some pass =>
    match pass.request, pass.left with
    | some request, partition :: rest =>
      s.put n (node.advance (c.named n) pass partition rest (s.store.heard request answer))
    | _, _ => s

def close (s : Leading) (n : Bytes) : Leading :=
  match (s.nodes n).pass with
  | none => s
  | some pass => if pass.left = [] then s.put n ((s.nodes n).close pass) else s

/-- `leader` up to where it asks etcd. -/
def ask (s : Leading) (n : Bytes) (thread : ℕ) (key : Bytes) (answered : Bool)
    (registered : List Member) : Leading :=
  match (s.nodes n).asking thread with
  | .idle =>
    if answered = false ∨ registered.length < 2 then s.replies n (partitionOf key) {} none
    else
      match (s.nodes n).claimant.leaderList (partitionOf key) with
      | some led => s.replies n (partitionOf key) led ((s.nodes n).sources (partitionOf key))
      | none => s.goes n thread (.getting (partitionOf key) registered)
  | _ => s

def get (s : Leading) (n : Bytes) (thread : ℕ) (reached : Bool) : Leading :=
  match (s.nodes n).asking thread with
  | .getting partition registered =>
    if reached then s.goes n thread (.got partition registered (s.store.keys partition))
    else s.returns n thread partition {} none
  | _ => s

/-- `leader` from the key it got on, up to its own transaction. -/
def resolve (s : Leading) (n : Bytes) (thread : ℕ) (lease : ℤ) : Leading :=
  match (s.nodes n).asking thread with
  | .got partition _ (some key) =>
    s.returns n thread partition
      ((c.named n).readBack (s.nodes n).claimant.terms key.holder partition) (some key)
  | .got partition registered none =>
    let named := leaderOf (partitionName partition) registered
    if named ≠ n then s.returns n thread partition { known := true, node := named } none
    else if lease = 0 then s.returns n thread partition {} none
    else (s.goes n thread (.creating partition s.store.requests.length)).sends n (.create partition)
  | _ => s

/-- `leader` from the answer of its create on, up to where it takes the lock. -/
def created (s : Leading) (n : Bytes) (thread : ℕ) (answer : Option ℕ) : Leading :=
  match (s.nodes n).asking thread with
  | .creating partition request =>
    match ClaimAnswer.claimed (s.store.heard request answer) with
    | none => s.returns n thread partition {} none
    | some claimed =>
      let node := s.nodes n
      let terms := if claimed.held then raiseTo node.claimant.terms partition claimed.revision
        else node.claimant.terms
      s.put n ({ node.hears partition claimed with
        claimant := { node.claimant with terms } }.asks thread (.listing partition claimed))
  | _ => s

/-- The end of `leader`, under the lock. -/
def list (s : Leading) (n : Bytes) (thread : ℕ) : Leading :=
  match (s.nodes n).asking thread with
  | .listing partition claimed =>
    let node := s.nodes n
    let led := (c.named n).ofClaim claimed
    let source : LeaderKey := ⟨claimed.holder, claimed.revision⟩
    (s.put n { node with
      claimant := { node.claimant with
        leaderList := Function.update node.claimant.leaderList partition (some led) }
      sources := Function.update node.sources partition (some source)
    }).returns n thread partition led source
  | _ => s

def accept (s : Leading) (n : Bytes) (key : Bytes) (term : ℤ) : Leading :=
  let node := s.nodes n
  s.put n { (if term = 0 then node else node.tells (partitionOf key) term) with
    claimant := (node.claimant.accept key term).2 }

def restore (s : Leading) (n : Bytes) (applied : PartitionTerms) : Leading :=
  let node := s.nodes n
  s.put n { node with
    claimant := node.claimant.restoreTerms applied
    told := fun partition => applied partition :: node.told partition }

def nodeStep (s : Leading) (n : Bytes) : ClaimantEvent → Leading
  | .range registered lease now reached => s.range c n registered lease now reached
  | .turn => s.turn c n
  | .turned answer => s.turned c n answer
  | .close => s.close n
  | .ask thread key answered registered => s.ask n thread key answered registered
  | .get thread reached => s.get n thread reached
  | .resolve thread lease => s.resolve c n thread lease
  | .created thread answer => s.created n thread answer
  | .list thread => s.list c n thread
  | .accept key term => s.accept n key term
  | .restore applied => s.restore n applied
  | .restart => s.put n {}

def step (s : Leading) : LeadingEvent → Leading
  | .expire partition => { s with store := s.store.expire partition }
  | .written => { s with store := { s.store with revision := s.store.revision + 1 } }
  | .apply request => { s with store := s.store.apply request }
  | .at n event => if (c.named n).isClustered then s.nodeStep c n event else s

end Leading

/-! ### A turn of a pass -/

namespace ClaimConfig

variable {c : ClaimConfig} {s : Claimant} {now : ℤ} {pass : ClaimPass} {w : Claimant.Walk}
  {partition : Partition} {holder : Bytes}

/-- A turn over a key that is there: what it calls, and what it knows after it. Unless the key was
removed, the leadership is read back from it. -/
theorem held_eq : (Claimant.held c s now pass w partition holder).calls =
      w.calls ++ (c.callOf s.releasing now pass.registered w.claims partition
        (some holder)).toList ∧
    (Claimant.held c s now pass w partition holder).terms = w.terms ∧
    (Claimant.held c s now pass w partition holder).known =
      if (c.callOf s.releasing now pass.registered w.claims partition (some holder)).isSome ∧
        pass.remove partition = true then w.known
      else Function.update w.known partition (some (c.readBack w.terms holder partition)) := by
  unfold Claimant.held
  dsimp only
  by_cases hmine : holder = c.node ∧ c.shouldLead pass.registered partition = false
  · by_cases hdue : c.tick ≤ now - (s.releasing partition).getD now ∧ w.claims < c.claimsPerRefresh
    · have hcall : c.callOf s.releasing now pass.registered w.claims partition (some holder) =
          some (.remove partition) := if_pos ⟨hmine.1, hmine.2, hdue⟩
      rw [hcall, if_pos hmine, if_pos hdue]
      cases pass.remove partition with
      | true => exact ⟨rfl, rfl, rfl⟩
      | false => exact ⟨rfl, rfl, rfl⟩
    · have hcall : c.callOf s.releasing now pass.registered w.claims partition (some holder) =
          none := if_neg fun h => hdue h.2.2
      rw [hcall, if_pos hmine, if_neg hdue]
      exact ⟨(List.append_nil _).symm, rfl, rfl⟩
  · have hcall : c.callOf s.releasing now pass.registered w.claims partition (some holder) = none :=
      if_neg fun h => hmine ⟨h.1, h.2.1⟩
    rw [hcall, if_neg hmine]
    exact ⟨(List.append_nil _).symm, rfl, rfl⟩

/-- A turn over a key that is not there: it creates the key or does nothing. -/
theorem unheld_eq (c : ClaimConfig) (releasing : Partition → Option ℤ) (now : ℤ) (pass : ClaimPass)
    (w : Claimant.Walk) (partition : Partition) :
    (c.callOf releasing now pass.registered w.claims partition none = none ∧
      Claimant.unheld c pass w partition = w) ∨
    (c.callOf releasing now pass.registered w.claims partition none = some (.create partition) ∧
      (Claimant.unheld c pass w partition).calls = w.calls ++ [.create partition] ∧
      (Claimant.unheld c pass w partition).known =
        ((pass.create partition).elim w.known fun claimed =>
          Function.update w.known partition (some (c.ofClaim claimed))) ∧
      (Claimant.unheld c pass w partition).terms =
        ((pass.create partition).elim w.terms fun claimed =>
          if claimed.held then raiseTo w.terms partition claimed.revision else w.terms)) := by
  unfold Claimant.unheld
  dsimp only
  by_cases hstop : c.claimsPerRefresh ≤ w.claims ∨ c.shouldLead pass.registered partition = false
  · have hcall : c.callOf releasing now pass.registered w.claims partition none = none :=
      if_pos hstop
    rw [if_pos hstop]
    exact Or.inl ⟨hcall, rfl⟩
  · have hcall : c.callOf releasing now pass.registered w.claims partition none =
        some (.create partition) := if_neg hstop
    rw [if_neg hstop]
    refine Or.inr ⟨hcall, ?_⟩
    cases pass.create partition with
    | none => exact ⟨rfl, rfl, rfl⟩
    | some claimed =>
      dsimp only [Option.elim]
      split_ifs
      · exact ⟨rfl, rfl, rfl⟩
      · exact ⟨rfl, rfl, rfl⟩

end ClaimConfig

/-! ### One pass alone -/

namespace LeadingNode

variable {c : ClaimConfig} {s : Claimant} {node : LeadingNode} {pass : LeadingPass}
  {given : ClaimPass} {keys : Std.ExtTreeMap Bytes Bytes}
  {answers : Partition → Option ClaimAnswer}

/-- A pass over the partitions left with nothing between its turns, to its end. -/
def passes (c : ClaimConfig) (answers : Partition → Option ClaimAnswer) :
    List Partition → LeadingNode → LeadingPass → LeadingNode
  | [], node, pass => node.close pass
  | partition :: rest, node, pass =>
    let node := node.advance c pass partition rest (answers partition)
    node.pass.elim node (passes c answers rest node)

/-- What the turns of a pass are to agree on with the pass of `Claimant`. -/
structure Agrees (c : ClaimConfig) (s : Claimant) (given : ClaimPass)
    (keys : Std.ExtTreeMap Bytes Bytes) (answers : Partition → Option ClaimAnswer)
    (node : LeadingNode) (pass : LeadingPass) : Prop where
  registered : pass.registered = given.registered
  keys : ∀ partition, keys[c.leaderKey partition]? = (pass.keys partition).map LeaderKey.holder
  create : ∀ partition, given.create partition = ClaimAnswer.claimed (answers partition)
  remove : ∀ partition, given.remove partition = ClaimAnswer.gone (answers partition)
  releasing : node.claimant.releasing = s.releasing
  terms : pass.w.terms = node.claimant.terms

/-- **A turn is a turn of `read_leaders`.** -/
theorem Agrees.advance (h : Agrees c s given keys answers node pass) (partition : Partition)
    (rest : List Partition) : ∃ after,
      (node.advance c pass partition rest (answers partition)).pass = some after ∧
      after.w = Claimant.turn c s pass.now given keys pass.w partition ∧ after.now = pass.now ∧
      Agrees c s given keys answers (node.advance c pass partition rest (answers partition))
        after := by
  have hw : { pass.w with terms := node.claimant.terms } = pass.w := by rw [← h.terms]
  unfold LeadingNode.advance Claimant.turn
  dsimp only
  rw [hw, h.keys]
  cases hkey : pass.keys partition with
  | some key =>
    refine ⟨_, rfl, ?_, rfl, ⟨h.registered, h.keys, h.create, h.remove, h.releasing, ?_⟩⟩
    · dsimp only [Option.map_some]
      unfold Claimant.held LeadingPass.given
      dsimp only
      rw [h.registered, h.releasing, h.remove]
    · exact ClaimConfig.held_eq.2.1.trans h.terms
  | none =>
    refine ⟨_, rfl, ?_, rfl, ⟨h.registered, h.keys, h.create, h.remove, h.releasing, rfl⟩⟩
    dsimp only [Option.map_none]
    unfold Claimant.unheld LeadingPass.given
    dsimp only
    rw [h.registered, h.create]

/-- The turns that are left. -/
theorem Agrees.passes (h : Agrees c s given keys answers node pass) (left : List Partition) :
    (node.passes c answers left pass).claimant =
      { terms := (left.foldl (Claimant.turn c s pass.now given keys) pass.w).terms
        leaderList := (left.foldl (Claimant.turn c s pass.now given keys) pass.w).known
        releasing := (left.foldl (Claimant.turn c s pass.now given keys) pass.w).toRelease } := by
  induction left generalizing node pass with
  | nil =>
    rw [LeadingNode.passes, close, List.foldl_nil]
    dsimp only
    rw [h.terms]
  | cons partition rest ih =>
    obtain ⟨after, hafter, hw, hnow, hagrees⟩ := h.advance partition rest
    rw [LeadingNode.passes, hafter, Option.elim_some, ih hagrees, hw, hnow, List.foldl_cons]

/-- **A pass that nothing comes between leaves what `readLeaders` leaves**, over the keys etcd holds
and with the answers its transactions get. -/
theorem passes_undisturbed {held : Partition → Option LeaderKey} (now : ℤ)
    (hmembers : 2 ≤ given.registered.length) (hlease : given.lease ≠ 0)
    (hrange : given.range = some keys)
    (hkeys : ∀ partition, keys[c.leaderKey partition]? = (held partition).map LeaderKey.holder)
    (hcreate : ∀ partition, given.create partition = ClaimAnswer.claimed (answers partition))
    (hremove : ∀ partition, given.remove partition = ClaimAnswer.gone (answers partition)) :
    (node.passes c answers (Claimant.walkOrder c)
      { registered := given.registered, lease := given.lease, now, keys := held
        left := Claimant.walkOrder c, w := { terms := node.claimant.terms } }).claimant =
      (node.claimant.readLeaders c now given).1 := by
  have hagrees : Agrees c node.claimant given keys answers node
      { registered := given.registered, lease := given.lease, now, keys := held
        left := Claimant.walkOrder c, w := { terms := node.claimant.terms } } :=
    ⟨rfl, hkeys, hcreate, hremove, rfl, rfl⟩
  rw [hagrees.passes, Claimant.readLeaders, if_neg (not_lt.mpr hmembers), if_neg hlease, hrange]
  rfl

end LeadingNode

/-! ### One thread alone -/

namespace Leading

variable {c : ClaimConfig} {s : Leading} {n : Bytes} {thread : ℕ} {key : Bytes} {ask : LeaderAsk}

@[simp] theorem nodes_put (s : Leading) (n : Bytes) (node : LeadingNode) :
    (s.put n node).nodes n = node := Function.update_self _ _ _

@[simp] theorem asking_asks (node : LeadingNode) (thread : ℕ) (stage : Asking) :
    (node.asks thread stage).asking thread = stage := Function.update_self _ _ _

@[simp] theorem asking_goes (s : Leading) (n : Bytes) (thread : ℕ) (stage : Asking) :
    ((s.goes n thread stage).nodes n).asking thread = stage := by
  rw [goes, nodes_put, asking_asks]

@[simp] theorem claimant_goes (s : Leading) (n : Bytes) (thread : ℕ) (stage : Asking) :
    ((s.goes n thread stage).nodes n).claimant = (s.nodes n).claimant := by
  rw [goes, nodes_put]
  rfl

/-- What comes after `ask`, with nothing between its stages but its own transaction. -/
def undisturbed (n : Bytes) (thread : ℕ) (reached : Bool) (lease : ℤ) (request : ℕ)
    (answer : Option ℕ) : List LeadingEvent :=
  [.at n (.get thread reached), .at n (.resolve thread lease), .apply request,
    .at n (.created thread answer), .at n (.list thread)]

/-- A thread that has returned does nothing more. -/
theorem idle_step (h : (s.nodes n).asking thread = .idle) {request : ℕ}
    (hlate : s.store.requests.length ≤ request) {reached : Bool} {lease : ℤ} {answer : Option ℕ} :
    ∀ e ∈ undisturbed n thread reached lease request answer, step c s e = s := by
  have happly : s.store.apply request = s.store := by
    unfold ClaimStore.apply
    rw [List.getElem?_eq_none hlate]
  have hget : s.get n thread reached = s := by rw [Leading.get, h]
  have hresolve : s.resolve c n thread lease = s := by rw [Leading.resolve, h]
  have hcreated : s.created n thread answer = s := by rw [Leading.created, h]
  have hlist : s.list c n thread = s := by rw [Leading.list, h]
  simp only [undisturbed, List.forall_mem_cons, step, nodeStep, hget, hresolve, happly, hcreated,
    hlist, ite_self, List.not_mem_nil, false_imp_iff, implies_true, and_true]

/-- The last answer there was, and what the node that gave it was left with. -/
def Answered (s : Leading) (n : Bytes) (answer : Leadership × Claimant) : Prop :=
  s.answers.head?.map LedAnswer.led = some answer.1 ∧ (s.nodes n).claimant = answer.2

theorem Answered.run_idle {answer : Leadership × Claimant} (h : s.Answered n answer)
    (hidle : (s.nodes n).asking thread = .idle) {request : ℕ}
    (hlate : s.store.requests.length ≤ request) {reached : Bool} {lease : ℤ} {heard : Option ℕ}
    {es : List LeadingEvent} (hes : es ⊆ undisturbed n thread reached lease request heard) :
    (run (step c) s es).Answered n answer := by
  induction es with
  | nil => exact h
  | cons e es ih =>
    rw [run_cons, idle_step hidle hlate e (hes List.mem_cons_self)]
    exact ih (List.subset_of_cons_subset hes)

theorem step_at (hclustered : (c.named n).isClustered = true) (event : ClaimantEvent) :
    step c s (.at n event) = s.nodeStep c n event := if_pos hclustered

theorem answered_returns (s : Leading) (n : Bytes) (thread : ℕ) (partition : Partition)
    (led : Leadership) (source : Option LeaderKey) :
    (s.returns n thread partition led source).Answered n (led, (s.nodes n).claimant) :=
  ⟨rfl, claimant_goes s n thread .idle⟩

theorem heard_none (store : ClaimStore) (request : ℕ) : store.heard request none = none := by
  unfold ClaimStore.heard
  cases store.requests[request]? with
  | none => rfl
  | some sent => rfl

/-- What a create is answered that comes first. -/
theorem heard_apply {store : ClaimStore} {request : ℕ} {partition : Partition}
    (hsent : store.requests[request]? = some { node := n, call := .create partition })
    (hkey : store.keys partition = none) : (store.apply request).heard request (some 0) =
      some (.claim { held := true, holder := n, revision := store.revision + 1 }) := by
  have hless : request < store.requests.length := (List.getElem?_eq_some_iff.mp hsent).1
  unfold ClaimStore.apply
  rw [hsent]
  dsimp only
  rw [ClaimStore.carryOut, ClaimStore.create, hkey]
  unfold ClaimStore.heard
  dsimp only
  rw [List.getElem?_set_self hless]
  rfl

/-- From the create on, which is carried out and heard of. -/
theorem created_undisturbed (hclustered : (c.named n).isClustered = true) {partition : Partition}
    {request : ℕ} (hstage : (s.nodes n).asking thread = .creating partition request)
    {answer : Option ℕ} {claimed : EtcdClaim}
    (hclaimed : ClaimAnswer.claimed (s.store.heard request answer) = some claimed) :
    (run (step c) s [.at n (.created thread answer), .at n (.list thread)]).Answered n
      ((c.named n).ofClaim claimed,
        { (s.nodes n).claimant with
          terms := if claimed.held then
              raiseTo (s.nodes n).claimant.terms partition claimed.revision
            else (s.nodes n).claimant.terms
          leaderList := Function.update (s.nodes n).claimant.leaderList partition
            (some ((c.named n).ofClaim claimed)) }) := by
  rw [run_cons, step_at hclustered, nodeStep, Leading.created, hstage]
  dsimp only
  rw [hclaimed]
  dsimp only
  rw [run_cons, run_nil, step_at hclustered, nodeStep, Leading.list, nodes_put, asking_asks]
  refine ⟨rfl, ?_⟩
  change ((Leading.goes _ n thread .idle).nodes n).claimant = _
  rw [claimant_goes, nodes_put]
  rfl

/-- From the key that was got on. -/
theorem resolve_undisturbed (hclustered : (c.named n).isClustered = true)
    (hfew : ¬ (ask.answered = false ∨ ask.registered.length < 2))
    (hled : (s.nodes n).claimant.leaderList (partitionOf key) = none)
    {keys : Std.ExtTreeMap Bytes Bytes} (hkeys : ask.get = some keys)
    (hget : keys[(c.named n).leaderKey (partitionOf key)]? =
      (s.store.keys (partitionOf key)).map LeaderKey.holder)
    (hcreate : ∀ claimed, ask.create = some claimed →
      claimed = { held := true, holder := n, revision := s.store.revision + 1 })
    (hstage : (s.nodes n).asking thread =
      .got (partitionOf key) ask.registered (s.store.keys (partitionOf key))) :
    (run (step c) s [.at n (.resolve thread ask.lease), .apply s.store.requests.length,
      .at n (.created thread (if ask.create.isSome then some 0 else none)),
      .at n (.list thread)]).Answered n ((s.nodes n).claimant.leader (c.named n) ask key) := by
  have hsingle : ¬ (c.named n).isClustered = false := ne_of_eq_of_ne hclustered (by decide)
  -- where it returns at once, the rest of its stages are nothing
  have hreturns : ∀ led source, (run (step c) (s.returns n thread (partitionOf key) led source)
      [.apply s.store.requests.length,
        .at n (.created thread (if ask.create.isSome then some 0 else none)),
        .at n (.list thread)]).Answered n (led, (s.nodes n).claimant) := fun led source =>
    (answered_returns s n thread _ led source).run_idle (asking_goes s n thread .idle) le_rfl
      (List.subset_append_right
        [LeadingEvent.at n (.get thread true), .at n (.resolve thread ask.lease)] _)
  unfold Claimant.leader
  dsimp only
  rw [if_neg hsingle, if_neg hfew, hled, hkeys]
  dsimp only
  rw [hget, run_cons, step_at hclustered, nodeStep, Leading.resolve, hstage]
  cases hkey : s.store.keys (partitionOf key) with
  | some found => exact hreturns _ _
  | none =>
    dsimp only [Option.map_none]
    change Answered (run _ (if leaderOf _ _ ≠ n then _ else _) _) n
      (if leaderOf _ _ ≠ n then _ else _)
    generalize leaderOf (partitionName (partitionOf key)) ask.registered = named
    by_cases hnamed : named ≠ n
    · rw [if_pos hnamed, if_pos hnamed]
      exact hreturns _ _
    rw [if_neg hnamed, if_neg hnamed]
    by_cases hlease : ask.lease = 0
    · rw [if_pos hlease, if_pos hlease]
      exact hreturns _ _
    rw [if_neg hlease, if_neg hlease]
    -- the create is the last transaction sent, and the first to be carried out on the key
    generalize hrequest : s.store.requests.length = request
    obtain ⟨sent, hsends, hasking, hclaimant, hheard⟩ : ∃ sent,
        (s.goes n thread (.creating (partitionOf key) request)).sends n
          (.create (partitionOf key)) = sent ∧
        (sent.nodes n).asking thread = .creating (partitionOf key) request ∧
        (sent.nodes n).claimant = (s.nodes n).claimant ∧
        (sent.store.apply request).heard request (some 0) =
          some (.claim { held := true, holder := n, revision := s.store.revision + 1 }) := by
      refine ⟨_, rfl, asking_goes s n thread _, claimant_goes s n thread _, ?_⟩
      subst hrequest
      exact heard_apply List.getElem?_concat_length hkey
    rw [hsends, run_cons, step]
    have happlied : ({ sent with store := sent.store.apply request }.nodes n).asking thread =
        .creating (partitionOf key) request := hasking
    cases hclaimed : ask.create with
    | none =>
      rw [run_cons, step_at hclustered, nodeStep, Leading.created, happlied]
      dsimp only
      rw [Option.isSome_none, if_neg Bool.false_ne_true, heard_none, ← hclaimant]
      exact (answered_returns _ n thread (partitionOf key) {} none).run_idle
        (asking_goes _ n thread .idle) le_rfl
        (List.subset_append_right [LeadingEvent.at n (.get thread true),
          .at n (.resolve thread ask.lease), .apply _, .at n (.created thread none)] _)
    | some claimed =>
      rw [hcreate claimed hclaimed, ← hclaimant]
      exact created_undisturbed hclustered happlied (congrArg ClaimAnswer.claimed hheard)

/-- **A thread that nothing comes between answers as `Claimant.leader` does** and leaves the node
with what it leaves, over what etcd holds. -/
theorem leader_undisturbed (hclustered : (c.named n).isClustered = true)
    (hidle : (s.nodes n).asking thread = .idle)
    (hget : ∀ keys, ask.get = some keys → keys[(c.named n).leaderKey (partitionOf key)]? =
      (s.store.keys (partitionOf key)).map LeaderKey.holder)
    (hcreate : ∀ claimed, ask.create = some claimed →
      claimed = { held := true, holder := n, revision := s.store.revision + 1 }) :
    (run (step c) (s.ask n thread key ask.answered ask.registered)
      (undisturbed n thread ask.get.isSome ask.lease s.store.requests.length
        (if ask.create.isSome then some 0 else none))).Answered n
      ((s.nodes n).claimant.leader (c.named n) ask key) := by
  have hsingle : ¬ (c.named n).isClustered = false := ne_of_eq_of_ne hclustered (by decide)
  unfold Leading.ask
  rw [hidle]
  dsimp only
  by_cases hfew : ask.answered = false ∨ ask.registered.length < 2
  · have hreplies : (s.replies n (partitionOf key) {} none).Answered n ({}, (s.nodes n).claimant) :=
      ⟨rfl, rfl⟩
    rw [Claimant.leader, if_neg hsingle, if_pos hfew, if_pos hfew]
    exact hreplies.run_idle hidle le_rfl (List.Subset.refl _)
  rw [if_neg hfew]
  cases hled : (s.nodes n).claimant.leaderList (partitionOf key) with
  | some led =>
    have hreplies : (s.replies n (partitionOf key) led
        ((s.nodes n).sources (partitionOf key))).Answered n (led, (s.nodes n).claimant) :=
          ⟨rfl, rfl⟩
    rw [Claimant.leader, if_neg hsingle, if_neg hfew, hled]
    exact hreplies.run_idle hidle le_rfl (List.Subset.refl _)
  | none =>
    dsimp only
    rw [undisturbed, run_cons, step_at hclustered, nodeStep, Leading.get, asking_goes]
    cases hkeys : ask.get with
    | none =>
      have hreturns := answered_returns
        (s.goes n thread (.getting (partitionOf key) ask.registered)) n thread
          (partitionOf key) {} none
      rw [Claimant.leader, if_neg hsingle, if_neg hfew, hled, hkeys, ← claimant_goes s n thread]
      exact hreturns.run_idle (asking_goes _ n thread _) le_rfl
        (List.subset_cons_self (LeadingEvent.at n (.get thread true)) _)
    | some keys =>
      have hsame := (claimant_goes
        (s.goes n thread (.getting (partitionOf key) ask.registered)) n thread
        (.got (partitionOf key) ask.registered (s.store.keys (partitionOf key)))).trans
        (claimant_goes s n thread _)
      rw [Option.isSome_some, ← hsame]
      exact resolve_undisturbed hclustered hfew (hsame ▸ hled) hkeys (hget keys hkeys) hcreate
        (asking_goes _ n thread _)

end Leading

end AsyncDatabase
