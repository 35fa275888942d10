import AsyncDatabase.Copy
import AsyncDatabase.Membership

/-!
# Acknowledged writes

Writes through a whole cluster whose nodes agree on one membership: nodes claim partitions and lead
in the terms of their claims, a write that was ordered is delivered to each copy late, more than
once or never, nodes start again over their stores, and a client is answered once every copy has
taken its write. `Net.Lasting` is what an answer is worth, and `lasting` says in which runs it is.
-/

namespace AsyncDatabase

open Bytes (ascii)
open Machine Throwing

/-- A claim of a partition: the node that made it, and the revision it was created in, which is the
term the node leads the partition in. -/
structure Claim where
  node : Bytes
  partition : Partition
  revision : ℤ
  deriving DecidableEq

/-- A write that a node ordered: the request as it sends it on, what the request names, the record
as it was stamped, and the orders that had been acknowledged before. -/
structure Order where
  self : Bytes
  request : Request
  table : Bytes
  partition : Bytes
  sort : Bytes
  record : Record
  since : List ℕ

/-- The nodes, what was claimed and ordered so far, which copy has taken which order, and which
orders were acknowledged. -/
structure Net where
  node : Bytes → Node
  claims : List Claim := []
  orders : List Order := []
  taken : List (ℕ × Bytes) := []
  acked : List ℕ := []

inductive NetEvent where
  | claim (self : Bytes) (partition : Partition) (revision : ℤ)
  /-- A node sees a term of a partition. -/
  | raise (self : Bytes) (partition : Partition) (term : ℤ)
  /-- A client's write reaches a node that takes itself for the leader in a term. -/
  | order (self : Bytes) (request : Request) (table partition sort : Bytes) (term : ℤ)
    (db : Database)
  | deliver (number : ℕ) (node : Bytes) (db : Database)
  | acknowledge (number : ℕ)
  | restart (self : Bytes)
  /-- A table that was ordered elsewhere is created. -/
  | create (self : Bytes) (table : Table) (stamp : Version)
  /-- A file of records is taken from another node. -/
  | imported (self : Bytes) (name : Bytes) (file : List Store.Carried)

section Step

variable (J : JsonCodec) (a : Agreed)

/-- Where a node sends a write of a partition on to. -/
def Order.nodes (o : Order) : List Bytes := (a.copies o.self (partitionOf o.record.key)).nodes

/-- What surrounds a node of the membership that takes itself for the leader in a term. -/
def Agreed.leading (self : Bytes) (db : Database) (term : ℤ) : Seams where
  db
  leader _ := { known := true, isLocal := true, term }
  replicas key := a.copies self (partitionOf key)

namespace Net

def setNode (s : Net) (name : Bytes) (n : Node) : Net :=
  { s with node := Function.update s.node name n }

/-- A node that leads a partition in the term of a claim of its own orders a write. -/
def order (s : Net) (self : Bytes) (request : Request) (table partition sort : Bytes) (term : ℤ)
    (db : Database) (record : Record) : Net :=
  match Node.orderWrite (a.leading self db term) table record
      { known := true, isLocal := true, term } (s.node self) with
  | .error _ n => s.setNode self n
  | .ok stamped n =>
    { s.setNode self n with
      orders := s.orders ++ [{ self, table, partition, sort, record := stamped, since := s.acked
                               request := request.carried stamped.stamp.term
                                 stamped.stamp.count }] }

/-- A copy is handed a write, and it has taken it where it does not refuse. -/
def deliver (s : Net) (number : ℕ) (o : Order) (node : Bytes) (db : Database) : Net :=
  match Node.record { db } { o.request with forwarded := true } o.table o.partition o.sort
      (s.node node) with
  | .error _ n => s.setNode node n
  | .ok answer n =>
    if answer.status < 400 then
      { s.setNode node n with taken := (number, node) :: s.taken }
    else s.setNode node n

def step (s : Net) : NetEvent → Net
  | .claim self partition revision =>
    -- revisions rise across everything that is ever claimed
    if (∀ claim ∈ s.claims, claim.revision < revision) ∧ 0 < revision ∧ revision < 2 ^ 63 then
      { s with claims := ⟨self, partition, revision⟩ :: s.claims }
    else s
  | .raise self partition term => s.setNode self ((s.node self).raise partition term)
  | .order self request table partition sort term db =>
    match Node.parseRequest request partition sort with
    | .error _ => s
    | .ok record =>
      if request.method = .put ∧ ⟨self, partitionOf record.key, term⟩ ∈ s.claims then
        s.order a self request table partition sort term db record
      else s
  | .deliver number node db =>
    match s.orders[number]? with
    | none => s
    | some o => if node ∈ o.nodes a then s.deliver number o node db else s
  | .acknowledge number =>
    match s.orders[number]? with
    | none => s
    | some o =>
      if ∀ node ∈ o.nodes a, (number, node) ∈ s.taken then
        { s with acked := number :: s.acked }
      else s
  | .restart self => s.setNode self ((s.node self).restarted J)
  | .create self table stamp =>
    if table.utf8 = true ∧ stamp.Documented then
      s.setNode self { s.node self with store := (s.node self).store.carryCreate J table stamp }
    else s
  | .imported self name file =>
    if ∀ carried ∈ file, 0 ≤ (Record.versionOf carried.2).term then
      s.setNode self
        { s.node self with store := after (Store.importRecords {} name file (s.node self).store) }
    else s

/-- Nodes over directories nothing was written into. -/
def start : Net where
  node _ := Node.fresh J

/-- **What an acknowledgement is worth**: the write has a newer version than every write of its key
that was acknowledged before it was sent, and every copy holds it or a newer one. -/
structure Lasting (s : Net) : Prop where
  newer : ∀ {i j : ℕ} {earlier later : Order}, s.orders[i]? = some earlier →
    s.orders[j]? = some later → j ∈ s.acked → i ∈ later.since → earlier.table = later.table →
    earlier.record.key = later.record.key →
    later.record.stamp.isNewer earlier.record.stamp = true
  held : ∀ {j : ℕ} {o : Order}, s.orders[j]? = some o → j ∈ s.acked →
    ∀ owner ∈ a.owners (partitionOf o.record.key), (s.node owner.node).Holds o.table o.record

/-- A node that orders a write of a partition of which there are no copies but its own and one more
does not lead in an older term than it has accepted, or in one that the other copy refuses; and its
counts have not run out. -/
def LeadsFenced (s : Net) : NetEvent → Prop
  | .order self _ _ partition sort term _ =>
    let held := partitionOf (Record.composeKey partition sort)
    let place := a.copies self held
    (s.node self).store.HasCounts ∧
      (place.isLocal = true → place.nodes.length < 2 → (s.node self).accepted held ≤ term ∨
        ∃ other ∈ place.nodes, term < (s.node other).accepted held)
  | _ => True

instance (s : Net) : DecidablePred (s.LeadsFenced a)
  | .order self _ _ partition sort term _ =>
    inferInstanceAs (Decidable ((s.node self).store.HasCounts ∧
      ((a.copies self (partitionOf (Record.composeKey partition sort))).isLocal = true →
        (a.copies self (partitionOf (Record.composeKey partition sort))).nodes.length < 2 →
        (s.node self).accepted (partitionOf (Record.composeKey partition sort)) ≤ term ∨
        ∃ other ∈ (a.copies self (partitionOf (Record.composeKey partition sort))).nodes,
          term < (s.node other).accepted (partitionOf (Record.composeKey partition sort)))))
  | .claim .. | .raise .. | .deliver .. | .acknowledge .. | .restart
    .. | .create .. | .imported .. =>
    inferInstanceAs (Decidable True)

end Net

end Step

/-- A write that was ordered is applied in the version it was stamped with, by whichever copy it is
handed to. -/
theorem Node.record_carried {w : Seams} {request : Request} {table partition sort : Bytes}
    {record : Record} {n : Node} (hput : request.method = .put)
    (hforwarded : request.forwarded = true) (hterm : request.term ≠ 0)
    (hparse : Node.parseRequest request partition sort = .ok record) :
    Node.record w request table partition sort n = Node.applyWrite w request table record n := by
  have hverb : (!isRecordVerb request.method) = false := by
    rw [hput]
    rfl
  unfold Node.record
  rw [if_pos hforwarded, routeForwardedRecord, if_neg (by simp [hverb]), hparse]
  dsimp only
  rw [if_neg (not_not.mpr hput), if_pos hterm]

/-- A client's write, at a node that has the table and leads in a term, is ordered and then sent to
the other copies: what the route does to the node is what `orderWrite` does. -/
theorem Node.after_record_put {w : Seams} {request : Request} {table partition sort : Bytes}
    {record : Record} {n : Node} (hput : request.method = .put)
    (hcarried : request.forwarded = true → request.term = 0)
    (hhas : request.forwarded = false → n.store.tables.has table = true)
    (hparse : Node.parseRequest request partition sort = .ok record)
    (hlocal : (w.leader record.key).isLocal = true) :
    after (Node.record w request table partition sort n) =
      after (Node.orderWrite w table record (w.leader record.key) (n.led w record.key)) := by
  have hlead : ∀ f : Leadership → Route Response,
      (leader w record.key >>= f) n = f (w.leader record.key) (n.led w record.key) := fun f => by
    rw [run_bind, leader_eq]
  have hverb : (!isRecordVerb request.method) = false := by
    rw [hput]
    rfl
  have hrun : Node.record w request table partition sort n =
      leadWrite w request table record (w.leader record.key) (n.led w record.key) := by
    unfold Node.record
    cases hforwarded : request.forwarded with
    | true =>
      rw [if_pos rfl, routeForwardedRecord, if_neg (by simp [hverb]), hparse]
      dsimp only
      rw [if_neg (not_not.mpr hput), if_neg (not_not.mpr (hcarried hforwarded)), hlead,
        if_neg (by simp [hlocal])]
    | false =>
      rw [if_neg Bool.false_ne_true, routeRecord, if_neg (by simp [hverb]), hparse]
      dsimp only
      rw [run_bind_get, if_neg (fun h => h.1 hput), if_neg (by simp [hhas hforwarded]),
        if_neg (not_not.mpr hput), hlead, if_pos hlocal]
  rw [hrun, leadWrite_eq]
  cases orderWrite w table record (w.leader record.key) (n.led w record.key) <;> rfl

namespace Net

variable {J : JsonCodec} {a : Agreed} {s : Net}

/-! ### What a step keeps -/

/-- What is known of a write that was ordered: the claim it was ordered under, that its count was
handed out by the node that ordered it, what its request names, and that the node's own copy has
it. -/
structure OrderKept (a : Agreed) (s : Net) (o : Order) : Prop where
  claimed : ⟨o.self, partitionOf o.record.key, o.record.stamp.term⟩ ∈ s.claims
  stamped : o.record.Stamped
  counted : (s.node o.self).store.HandedOut o.record.stamp.count
  put : o.request.method = .put
  carried : o.request.term = o.record.stamp.term ∧ o.request.count = o.record.stamp.count
  parsed : ∃ record, Node.parseRequest o.request o.partition o.sort = .ok record ∧
    o.record = { record with stamp := o.record.stamp }
  own : (a.copies o.self (partitionOf o.record.key)).isLocal = true →
    o.record.stamp.term ≤ (s.node o.self).store.terms (partitionOf o.record.key) ∧
      (s.node o.self).Holds o.table o.record

/-- A write that was acknowledged before another was sent is in no later a term, or some copy will
refuse the other for good. -/
def Precedes (a : Agreed) (s : Net) (earlier : Order) (number : ℕ) (later : Order) : Prop :=
  earlier.record.stamp.term ≤ later.record.stamp.term ∨
    ∃ node ∈ later.nodes a, (number, node) ∉ s.taken ∧
      (s.node node).Refuses (partitionOf later.record.key) (later.record.stamp.term + 1)

/-- **What holds in every state**: copies are sturdy and claims are each made once; a copy that has
taken a write refuses what is older and holds it; what was acknowledged was taken by every copy, and
precedes what was sent after it. -/
structure Sound (J : JsonCodec) (a : Agreed) (s : Net) : Prop where
  sturdy : ∀ name, (s.node name).Sturdy J
  claims : ∀ claim ∈ s.claims, 0 < claim.revision ∧ claim.revision < 2 ^ 63
  once : ∀ claim ∈ s.claims, ∀ other ∈ s.claims, claim.revision = other.revision → claim = other
  ordered : ∀ {i : ℕ} {o : Order}, s.orders[i]? = some o → s.OrderKept a o
  rising : ∀ {i j : ℕ} {earlier later : Order}, i < j → s.orders[i]? = some earlier →
    s.orders[j]? = some later → earlier.self = later.self →
    earlier.record.stamp.count < later.record.stamp.count
  taken : ∀ {i : ℕ} {node : Bytes}, (i, node) ∈ s.taken → ∃ o, s.orders[i]? = some o ∧
    node ∈ o.nodes a ∧ (s.node node).Refuses (partitionOf o.record.key) o.record.stamp.term ∧
    (s.node node).Holds o.table o.record
  acked : ∀ {i : ℕ}, i ∈ s.acked → ∃ o, s.orders[i]? = some o ∧
    ∀ node ∈ o.nodes a, (i, node) ∈ s.taken
  since : ∀ {j : ℕ} {later : Order}, s.orders[j]? = some later → ∀ i ∈ later.since, i < j ∧
    ∀ {earlier : Order}, s.orders[i]? = some earlier →
      partitionOf earlier.record.key = partitionOf later.record.key →
      s.Precedes a earlier j later

theorem sound_start (J : JsonCodec) (a : Agreed) : (start J).Sound J a where
  sturdy _ := Node.sturdy_fresh J
  claims claim h := by cases h
  once claim h := by cases h
  ordered h := by cases h
  rising _ h := by cases h
  taken h := by cases h
  acked h := by cases h
  since h := by cases h

theorem node_setNode (s : Net) (name other : Bytes) (n : Node) :
    (s.setNode name n).node other = if other = name then n else s.node other := by
  unfold setNode
  split_ifs with h
  · subst h
    exact Function.update_self ..
  · exact Function.update_of_ne h ..

/-- Two writes of one node's that were stamped the same are one write, and no two nodes stamp in one
term. -/
theorem Sound.eq_of_stamp (h : s.Sound J a) {i j : ℕ} {o o' : Order} (ho : s.orders[i]? = some o)
    (ho' : s.orders[j]? = some o') (hstamp : o.record.stamp = o'.record.stamp) : o = o' := by
  have hself : o.self = o'.self :=
    congrArg Claim.node (h.once _ (h.ordered ho).claimed _ (h.ordered ho').claimed (by rw [hstamp]))
  rcases lt_trichotomy i j with hlt | heq | hgt
  · have hcount := h.rising hlt ho ho' hself
    rw [hstamp] at hcount
    omega
  · rw [heq] at ho
    exact Option.some.inj (ho.symm.trans ho')
  · have hcount := h.rising hgt ho' ho hself.symm
    rw [hstamp] at hcount
    omega

theorem refuses_setNode {name other : Bytes} {n : Node} {writes : List (Bytes × Record)}
    (hgrows : (s.node name).Grows writes n) {partition : Partition} {term : ℤ}
    (h : (s.node other).Refuses partition term) :
    ((s.setNode name n).node other).Refuses partition term := by
  rw [node_setNode]
  split_ifs with heq
  · rw [heq] at h
    exact hgrows.refuses h
  · exact h

/-- A node at a later state, where every write it took is one that was ordered or clashes with
none. -/
theorem Sound.setNode (h : s.Sound J a) {name : Bytes} {n : Node} (hsturdy : n.Sturdy J)
    {writes : List (Bytes × Record)} (hgrows : (s.node name).Grows writes n)
    (hwrites : ∀ {i : ℕ} {o : Order}, s.orders[i]? = some o → ∀ written ∈ writes,
      written.1 = o.table → written.2.key = o.record.key → written.2.stamp = o.record.stamp →
      written.2.value = o.record.value) : (s.setNode name n).Sound J a := by
  -- a write that a copy holds, it or a newer one is held from then on
  have hholds : ∀ {i : ℕ} {o : Order}, s.orders[i]? = some o → ∀ {other : Bytes},
      (s.node other).Holds o.table o.record →
      ((s.setNode name n).node other).Holds o.table o.record := by
    intro i o ho other hother
    rw [node_setNode]
    split_ifs with heq
    · rw [heq] at hother
      exact hgrows.holds (h.ordered ho).stamped (hwrites ho) hother
    · exact hother
  refine ⟨fun other => ?_, h.claims, h.once, fun ho => ?_, h.rising, fun hmem => ?_, h.acked,
    fun ho i hi => ⟨(h.since ho i hi).1, fun he hpartition => ?_⟩⟩
  · rw [node_setNode]
    split_ifs
    · exact hsturdy
    · exact h.sturdy other
  · obtain ⟨hclaimed, hstamped, hcounted, hput, hcarried, hparsed, hown⟩ := h.ordered ho
    refine ⟨hclaimed, hstamped, ?_, hput, hcarried, hparsed, fun hlocal =>
      ⟨?_, hholds ho (hown hlocal).2⟩⟩
    · -- a count that was handed out stays handed out
      rw [node_setNode]
      split_ifs with heq
      · rw [heq] at hcounted
        exact hgrows.handedOut hcounted
      · exact hcounted
    · -- terms only rise
      rw [node_setNode]
      have hterms := (hown hlocal).1
      split_ifs with heq
      · rw [heq] at hterms
        exact hterms.trans (hgrows.terms _)
      · exact hterms
  · obtain ⟨o, ho, hnode, hother, hheld⟩ := h.taken hmem
    exact ⟨o, ho, hnode, refuses_setNode hgrows hother, hholds ho hheld⟩
  · rcases (h.since ho i hi).2 he hpartition with hle | ⟨node, hnode, hnot, hother⟩
    · exact Or.inl hle
    · exact Or.inr ⟨node, hnode, hnot, refuses_setNode hgrows hother⟩

theorem getElem?_concat {α : Type*} {l : List α} {x y : α} {i : ℕ} :
    (l ++ [x])[i]? = some y ↔ l[i]? = some y ∨ i = l.length ∧ y = x := by
  rw [List.getElem?_append]
  split_ifs with hlt
  · simp [hlt.ne]
  · rw [List.getElem?_singleton]
    have hnone : l[i]? = none := List.getElem?_eq_none (not_lt.mp hlt)
    rw [hnone]
    split_ifs with hzero
    · have heq : i = l.length := by omega
      simp [heq, eq_comm]
    · have hne : i ≠ l.length := by omega
      simp [hne]

/-- What was acknowledged precedes a write that its node orders in a term the fence lets through. -/
theorem Sound.precedes_ordered (h : s.Sound J a) {self : Bytes} {n : Node}
    {writes : List (Bytes × Record)} (hgrows : (s.node self).Grows writes n) {later : Order}
    (hself : later.self = self)
    (hfenced : (a.copies self (partitionOf later.record.key)).isLocal = true →
      (a.copies self (partitionOf later.record.key)).nodes.length < 2 →
      (s.node self).accepted (partitionOf later.record.key) ≤ later.record.stamp.term ∨
        ∃ other ∈ (a.copies self (partitionOf later.record.key)).nodes,
          later.record.stamp.term < (s.node other).accepted (partitionOf later.record.key))
    {i : ℕ} (hi : i ∈ s.acked) {earlier : Order} (hearlier : s.orders[i]? = some earlier)
    (hpartition : partitionOf earlier.record.key = partitionOf later.record.key) :
    (s.setNode self n).Precedes a earlier s.orders.length later := by
  obtain ⟨o, ho, htaken⟩ := h.acked hi
  obtain rfl := Option.some.inj (ho.symm.trans hearlier)
  -- nothing has taken a write that is only being ordered
  have hfresh : ∀ node, (s.orders.length, node) ∉ s.taken := by
    intro node hmem
    obtain ⟨o', ho', -⟩ := h.taken hmem
    rw [List.getElem?_eq_none (le_refl _)] at ho'
    cases ho'
  have hrefuses : ∀ node ∈ o.nodes a,
      (s.node node).Refuses (partitionOf later.record.key) o.record.stamp.term := by
    intro node hnode
    obtain ⟨o', ho', -, hrefuses, -⟩ := h.taken (htaken node hnode)
    obtain rfl := Option.some.inj (ho'.symm.trans hearlier)
    rwa [hpartition] at hrefuses
  by_cases hle : o.record.stamp.term ≤ later.record.stamp.term
  · exact Or.inl hle
  refine Or.inr ?_
  have hlt : later.record.stamp.term + 1 ≤ o.record.stamp.term := by omega
  rcases a.shared_copy o.self self (partitionOf later.record.key) with
    ⟨node, hnode, hcommon⟩ | ⟨hne, hlocal, hlocal', hnodes, hnodes'⟩
  · -- a copy both are sent to has taken the one and refuses the other
    have hnode' : node ∈ o.nodes a := by rwa [Order.nodes, hpartition]
    have hcommon' : node ∈ later.nodes a := by rwa [Order.nodes, hself]
    have hold := hrefuses node hnode'
    exact ⟨node, hcommon', hfresh node,
      refuses_setNode hgrows ⟨hlt.trans hold.accepted, hlt.trans hold.stored⟩⟩
  · -- there are the two copies of the two nodes alone, and each orders at its own
    have hown : self ∈ o.nodes a := by
      rw [Order.nodes, hpartition, hnodes]
      exact List.mem_singleton_self _
    have haccepted := (hrefuses self hown).accepted
    rcases hfenced hlocal' (by rw [hnodes']; exact Nat.lt_succ_self 1) with
      hfence | ⟨other, hother, hfence⟩
    · omega
    · rw [hnodes', List.mem_singleton] at hother
      subst hother
      refine ⟨o.self, ?_, hfresh _, refuses_setNode hgrows ⟨hfence, ?_⟩⟩
      · rw [Order.nodes, hself, hnodes']
        exact List.mem_singleton_self _
      · have hstored := ((h.ordered hearlier).own (by rw [hpartition]; exact hlocal)).1
        rw [hpartition] at hstored
        exact hlt.trans hstored

/-- A write that is sent after all that was acknowledged, with a count above every one that its node
handed out before. -/
theorem Sound.append (h : s.Sound J a) {later : Order} (hkept : s.OrderKept a later)
    (habove : ∀ {i : ℕ} {o : Order}, s.orders[i]? = some o → o.self = later.self →
      o.record.stamp.count < later.record.stamp.count) (hsince : later.since = s.acked)
    (hprecedes : ∀ i ∈ s.acked, ∀ {earlier : Order}, s.orders[i]? = some earlier →
      partitionOf earlier.record.key = partitionOf later.record.key →
      s.Precedes a earlier s.orders.length later) :
    ({ s with orders := s.orders ++ [later] } : Net).Sound J a := by
  refine ⟨h.sturdy, h.claims, h.once, fun ho => ?_, fun hlt ho ho' hself => ?_,
    fun hmem => ?_, fun hi => ?_, fun ho i hi => ?_⟩
  · rcases getElem?_concat.mp ho with hold | ⟨-, rfl⟩
    · exact { h.ordered hold with }
    · exact { hkept with }
  · rcases getElem?_concat.mp ho with hold | ⟨rfl, rfl⟩
    · rcases getElem?_concat.mp ho' with hold' | ⟨rfl, rfl⟩
      · exact h.rising hlt hold hold' hself
      · exact habove hold hself
    · have hlength := (List.getElem?_eq_some_iff.mp ho').1
      rw [List.length_append, List.length_singleton] at hlength
      exact absurd hlt (by omega)
  · obtain ⟨o, ho, hrest⟩ := h.taken hmem
    exact ⟨o, getElem?_concat.mpr (Or.inl ho), hrest⟩
  · obtain ⟨o, ho, hrest⟩ := h.acked hi
    exact ⟨o, getElem?_concat.mpr (Or.inl ho), hrest⟩
  · rcases getElem?_concat.mp ho with hold | ⟨rfl, rfl⟩
    · -- an order that was there before, which was sent after none that is sent now
      obtain ⟨hlt, hbefore⟩ := h.since hold i hi
      refine ⟨hlt, fun {earlier} hearlier hpartition => hbefore ?_ hpartition⟩
      have hlength := (List.getElem?_eq_some_iff.mp hold).1
      rcases getElem?_concat.mp hearlier with hold' | ⟨rfl, -⟩
      · exact hold'
      · exact absurd (hlt.trans hlength) (lt_irrefl _)
    · rw [hsince] at hi
      obtain ⟨o, ho', -⟩ := h.acked hi
      have hlength := (List.getElem?_eq_some_iff.mp ho').1
      refine ⟨hlength, fun {earlier} hearlier hpartition => ?_⟩
      rcases getElem?_concat.mp hearlier with hold' | ⟨rfl, -⟩
      · exact hprecedes i hi hold' hpartition
      · exact absurd hlength (lt_irrefl _)

/-- **A write that is ordered** keeps what holds in every state. -/
theorem Sound.order (h : s.Sound J a) {self : Bytes} {request : Request}
    {table partition sort : Bytes} {term : ℤ} {db : Database} {record : Record}
    (hparse : Node.parseRequest request partition sort = .ok record) (hput : request.method = .put)
    (hclaim : ⟨self, partitionOf record.key, term⟩ ∈ s.claims)
    (hfenced : s.LeadsFenced a (.order self request table partition sort term db)) :
    (s.order a self request table partition sort term db record).Sound J a := by
  have hrevision := h.claims _ hclaim
  have hlead := hrevision.1.le
  dsimp only [LeadsFenced] at hfenced
  rw [← Node.key_of_parseRequest hparse] at hfenced
  unfold Net.order
  rcases Node.grows_orderWrite (h.sturdy self) hfenced.1 (a.leading self db term) table record
    { known := true, isLocal := true, term } hlead hrevision.2 with
    ⟨e, n, hrun, hsturdy, hgrows⟩ |
    ⟨stamped, n, hrun, hstamp, hstamped, hsturdy, hgrows, hcounted, hnew, hown⟩
  · rw [hrun]
    exact h.setNode hsturdy hgrows fun _ written hmem => by cases hmem
  rw [hrun]
  dsimp only
  have hkey : stamped.key = record.key := by rw [hstamp]
  have hterm : stamped.stamp.term = term := by rw [hstamp]
  -- the count is above that of every write the node has ordered
  have habove : ∀ {i : ℕ} {o : Order}, s.orders[i]? = some o → o.self = self →
      o.record.stamp.count < stamped.stamp.count := by
    intro i o ho hself
    refine hnew _ ?_
    rw [← hself]
    exact (h.ordered ho).counted
  have hset : (s.setNode self n).Sound J a := by
    refine h.setNode hsturdy hgrows fun {i o} ho written hmem _ hkeys hstamps => ?_
    obtain rfl := List.mem_singleton.mp hmem
    have hself := congrArg Claim.node
      (h.once _ (h.ordered ho).claimed _ hclaim (by rw [← hstamps, hterm]))
    have hcount := habove ho hself
    rw [← hstamps] at hcount
    exact absurd hcount (lt_irrefl _)
  let later : Order :=
    { self, table, partition, sort, record := stamped, since := s.acked
      request := request.carried stamped.stamp.term stamped.stamp.count }
  have hnow : (s.setNode self n).node self = n := by rw [node_setNode, if_pos rfl]
  have hkept : (s.setNode self n).OrderKept a later := by
    refine ⟨?_, hstamped, ?_, hput, ⟨rfl, rfl⟩, ⟨record, hparse, ?_⟩, fun hlocal => ?_⟩
    · dsimp only [later]
      rw [hkey, hterm]
      exact hclaim
    · change ((s.setNode self n).node self).store.HandedOut _
      rw [hnow]
      exact hcounted
    · dsimp only [later]
      rw [hstamp]
    · change _ ≤ ((s.setNode self n).node self).store.terms _ ∧
        ((s.setNode self n).node self).Holds _ _
      rw [hnow]
      dsimp only [later] at hlocal ⊢
      rw [hkey, hterm]
      rw [hkey] at hlocal
      exact hown hlocal
  refine hset.append hkept habove rfl fun i hi {earlier} hearlier hpartition => ?_
  refine h.precedes_ordered hgrows rfl ?_ hi hearlier hpartition
  dsimp only [later]
  rw [hkey, hterm]
  exact hfenced.2

/-- **A write that is delivered** keeps what holds in every state: a copy that will refuse it does
not take it. -/
theorem Sound.deliver (h : s.Sound J a) {number : ℕ} {o : Order} (ho : s.orders[number]? = some o)
    {node : Bytes} (hnode : node ∈ o.nodes a) (db : Database) :
    (s.deliver number o node db).Sound J a := by
  obtain ⟨hclaimed, hstamped, -, hput, hcarried, ⟨record, hparse, hrecord⟩, -⟩ := h.ordered ho
  -- the copy takes the request for an ordered one, as its term is that of a claim
  have hpositive : 0 < o.record.stamp.term := (h.claims _ hclaimed).1
  have hparse' : Node.parseRequest { o.request with forwarded := true } o.partition o.sort =
      .ok record := hparse
  have hstamp : o.record = { record with stamp := ⟨o.request.term, o.request.count⟩ } := by
    rw [hcarried.1, hcarried.2]
    exact hrecord
  have hkey : record.key = o.record.key := by rw [hrecord]
  have hrun : Node.record { db } { o.request with forwarded := true } o.table o.partition o.sort
      (s.node node) = Node.applyWrite { db } { o.request with forwarded := true } o.table record
        (s.node node) := Node.record_carried hput rfl (by change o.request.term ≠ 0; omega) hparse'
  obtain ⟨hsturdy, hgrows, htook⟩ := Node.grows_applyWrite (h.sturdy node) { db }
    { o.request with forwarded := true } o.table record
    (by change o.request.term ≠ 0; omega) (by rw [hstamp] at hstamped; exact hstamped)
  -- what it is handed is the write as it was stamped
  change Node.Grows _ [(o.table, { record with stamp := ⟨o.request.term, o.request.count⟩ })] _
    at hgrows
  rw [← hstamp] at hgrows
  unfold Net.deliver
  rw [hrun]
  have hset : ∀ n, n = after (Node.applyWrite { db } { o.request with forwarded := true } o.table
      record (s.node node)) → (s.setNode node n).Sound J a := by
    rintro n rfl
    refine h.setNode hsturdy hgrows fun {i o'} ho' written hmem _ _ hstamps => ?_
    obtain rfl := List.mem_singleton.mp hmem
    rw [h.eq_of_stamp ho ho' hstamps]
  cases hanswer : Node.applyWrite { db } { o.request with forwarded := true } o.table record
      (s.node node) with
  | error e n =>
    rw [hanswer] at hset
    exact hset n rfl
  | ok answer n =>
    rw [hanswer] at hset hgrows htook
    dsimp only
    split_ifs with hstatus
    · -- it took the write
      obtain ⟨hfence, hrefuses, hholds⟩ := htook answer rfl hstatus
      change _ ≤ o.request.term at hfence
      rw [hkey, hcarried.1] at hfence
      rw [hkey] at hrefuses
      change Node.Refuses _ _ o.request.term at hrefuses
      rw [hcarried.1] at hrefuses
      change Node.Holds _ _ { record with stamp := ⟨o.request.term, o.request.count⟩ } at hholds
      rw [← hstamp] at hholds
      have hnow : (s.setNode node n).node node = n := by rw [node_setNode, if_pos rfl]
      have hset' := hset n rfl
      refine ⟨hset'.sturdy, hset'.claims, hset'.once, fun ho' => { hset'.ordered ho' with },
        hset'.rising, fun hmem => ?_, fun hi => ?_, fun ho' i hi => ?_⟩
      · rcases List.mem_cons.mp hmem with heq | hold
        · cases heq
          refine ⟨o, ho, hnode, ?_, ?_⟩
          · change ((s.setNode node n).node node).Refuses _ _
            rw [hnow]
            exact hrefuses
          · change ((s.setNode node n).node node).Holds _ _
            rw [hnow]
            exact hholds
        · exact hset'.taken hold
      · obtain ⟨o', ho', htaken⟩ := h.acked hi
        exact ⟨o', ho', fun other hother => List.mem_cons_of_mem _ (htaken other hother)⟩
      · refine ⟨(h.since ho' i hi).1, fun hearlier hpartition => ?_⟩
        rcases (h.since ho' i hi).2 hearlier hpartition with hle | ⟨other, hother, hnot, hwill⟩
        · exact Or.inl hle
        · refine Or.inr ⟨other, hother, fun hmem => ?_, refuses_setNode hgrows hwill⟩
          rcases List.mem_cons.mp hmem with heq | hold
          · -- the write it took is not older than what it will refuse
            cases heq
            obtain rfl := Option.some.inj (ho'.symm.trans ho)
            have hrefused := hwill.accepted
            omega
          · exact hnot hold
    · exact hset n rfl

/-- A claim is in a revision above every one that was claimed before. -/
theorem Sound.claim (h : s.Sound J a) {self : Bytes} {partition : Partition} {revision : ℤ}
    (habove : ∀ claim ∈ s.claims, claim.revision < revision) (hpositive : 0 < revision)
    (hlt : revision < 2 ^ 63) :
    ({ s with claims := ⟨self, partition, revision⟩ :: s.claims } : Net).Sound J a := by
  have hnew : ∀ claim ∈ s.claims, claim.revision ≠ revision := fun claim hmem =>
    (habove claim hmem).ne
  refine ⟨h.sturdy, fun claim hmem => ?_, fun claim hmem other hother heq =>
    ?_, fun ho => ?_, h.rising, h.taken, h.acked, h.since⟩
  · rcases List.mem_cons.mp hmem with rfl | hold
    · exact ⟨hpositive, hlt⟩
    · exact h.claims claim hold
  · rcases List.mem_cons.mp hmem with rfl | hold
    · rcases List.mem_cons.mp hother with rfl | hold'
      · rfl
      · exact absurd heq.symm (hnew other hold')
    · rcases List.mem_cons.mp hother with rfl | hold'
      · exact absurd heq (hnew claim hold)
      · exact h.once claim hold other hold' heq
  · exact { h.ordered ho with claimed := List.mem_cons_of_mem _ (h.ordered ho).claimed }

/-- **The step lemma**, one case for each thing that happens. -/
theorem Sound.step (h : s.Sound J a) {e : NetEvent} (he : s.LeadsFenced a e) :
    (s.step J a e).Sound J a := by
  have hnone : ∀ {i : ℕ} {o : Order}, s.orders[i]? = some o →
      ∀ written ∈ ([] : List (Bytes × Record)), written.1 = o.table → written.2.key = o.record.key →
        written.2.stamp = o.record.stamp → written.2.value = o.record.value :=
    fun _ _ hmem => by cases hmem
  cases e with
  | claim self partition revision =>
    rw [Net.step]
    split_ifs with hclaim
    · exact h.claim hclaim.1 hclaim.2.1 hclaim.2.2
    · exact h
  | raise self partition term =>
    exact h.setNode ((h.sturdy self).of_store rfl) (Node.grows_raise _ partition term) hnone
  | order self request table partition sort term db =>
    rw [Net.step]
    cases hparse : Node.parseRequest request partition sort with
    | error refused => exact h
    | ok record =>
      dsimp only
      split_ifs with hguard
      · exact h.order hparse hguard.1 hguard.2 he
      · exact h
  | deliver number node db =>
    rw [Net.step]
    cases ho : s.orders[number]? with
    | none => exact h
    | some o =>
      dsimp only
      split_ifs with hnode
      · exact h.deliver ho hnode db
      · exact h
  | acknowledge number =>
    rw [Net.step]
    cases ho : s.orders[number]? with
    | none => exact h
    | some o =>
      dsimp only
      split_ifs with htaken
      · -- what is acknowledged was taken by every copy
        refine ⟨h.sturdy, h.claims, h.once, fun ho' => { h.ordered ho' with }, h.rising, h.taken,
          fun hi => ?_, h.since⟩
        rcases List.mem_cons.mp hi with rfl | hold
        · exact ⟨o, ho, htaken⟩
        · exact h.acked hold
      · exact h
  | restart self =>
    obtain ⟨hsturdy, hgrows⟩ := Node.grows_restarted (h.sturdy self)
    exact h.setNode hsturdy hgrows hnone
  | create self table stamp =>
    rw [Net.step]
    split_ifs with hguard
    · obtain ⟨hsturdy, hgrows⟩ := Node.grows_carryCreate
        { s.node self with store := (s.node self).store.carryCreate J table stamp } (h.sturdy self)
        hguard.1 hguard.2 rfl rfl
      exact h.setNode hsturdy hgrows hnone
    · exact h
  | imported self name file =>
    rw [Net.step]
    split_ifs with hguard
    · obtain ⟨hsturdy, hgrows⟩ := Node.grows_imported
        { s.node self with store := after (Store.importRecords {} name file (s.node self).store) }
        (h.sturdy self) hguard rfl rfl
      exact h.setNode hsturdy hgrows hnone
    · exact h

/-- What holds in every state makes an acknowledgement worth what it says. -/
theorem Sound.lasts (h : s.Sound J a) : s.Lasting a where
  newer {i j earlier later} hearlier hlater hacked hi _ hkey := by
    obtain ⟨o, ho, htaken⟩ := h.acked hacked
    obtain rfl := Option.some.inj (ho.symm.trans hlater)
    obtain ⟨hlt, hprecedes⟩ := h.since ho i hi
    rw [Version.isNewer_iff]
    rcases hprecedes hearlier (by rw [hkey]) with hle | ⟨node, hnode, hnot, -⟩
    · rcases hle.lt_or_eq with hless | heq
      · exact Or.inl hless
      · -- two writes in one term are one node's, which counts them
        have hself := congrArg Claim.node
          (h.once _ (h.ordered hearlier).claimed _ (h.ordered ho).claimed heq)
        exact Or.inr ⟨heq.symm, h.rising hlt hearlier ho hself⟩
    · exact absurd (htaken node hnode) hnot
  held {j o} ho hacked owner howner := by
    obtain ⟨o', ho', htaken⟩ := h.acked hacked
    obtain rfl := Option.some.inj (ho'.symm.trans ho)
    by_cases hself : owner.node = o'.self
    · have hlocal := a.isLocal_copies.mpr ⟨owner, howner, hself⟩
      rw [hself]
      exact ((h.ordered ho).own hlocal).2
    · have hnode : owner.node ∈ o'.nodes a :=
        a.mem_nodes_copies.mpr ⟨hself, owner, howner, rfl⟩
      obtain ⟨o, hother, -, -, hholds⟩ := h.taken (htaken _ hnode)
      obtain rfl := Option.some.inj (hother.symm.trans ho)
      exact hholds

end Net

/-- **An acknowledged write is never lost to an earlier one**, in every run in which the nodes of
two copies order no write in a term that neither of the two would refuse for a newer one. -/
theorem lasting (J : JsonCodec) (a : Agreed) (es : List NetEvent)
    (h : Throughout (Net.step J a) (Net.LeadsFenced a) (Net.start J) es) :
    Always (Net.step J a) (Net.Lasting a) (Net.start J) es := by
  have hsound := h.always (I := Net.Sound J a) (fun s e hs he => hs.step he) (Net.sound_start J a)
  exact hsound.mono fun s hs => hs.lasts

/-! ### A leader that does not fence its own copy -/

/-- Two nodes in two zones. -/
def twoZones : Agreed where
  members := [⟨ascii "A", ascii "a"⟩, ⟨ascii "B", ascii "b"⟩]
  zone name := if name = ascii "A" then ascii "a" else ascii "b"
  nodup := by decide
  named := by decide
  zones := ⟨⟨ascii "A", ascii "a"⟩, by decide, ⟨ascii "B", ascii "b"⟩, by decide, by decide⟩

/-- Both nodes have a table and have claimed the partition of the key `k`, one after the other. -/
def claimedTwice : List NetEvent :=
  [.create (ascii "A") ⟨ascii "t", []⟩ ⟨1, 1⟩, .create (ascii "B") ⟨ascii "t", []⟩ ⟨1, 1⟩,
    .claim (ascii "A") (partitionOf (ascii "k")) 5, .claim (ascii "B") (partitionOf (ascii "k")) 9]

/-- A client's write of the key `k`, that a node orders in a term. -/
def orderWriteAt (self : Bytes) (value : Bytes) (term : ℤ) : NetEvent :=
  .order self { method := .put, path := [ascii "table", ascii "t", ascii "key", ascii "k"],
                body := value } (ascii "t") (ascii "k") [] term {}

theorem lasting_claimedTwice :
    Always (Net.step JsonText.codec twoZones) (Net.Lasting twoZones) (Net.start JsonText.codec)
      (claimedTwice ++ [orderWriteAt (ascii "A") (ascii "v") 5, .deliver 0 (ascii "B") {},
        .acknowledge 0, orderWriteAt (ascii "B") (ascii "w") 9, .deliver 1 (ascii "A") {},
        .acknowledge 1, .restart (ascii "A"), .deliver 0 (ascii "B") {}]) :=
  lasting JsonText.codec twoZones (claimedTwice ++ [orderWriteAt (ascii "A") (ascii "v") 5,
    .deliver 0 (ascii "B") {}, .acknowledge 0, orderWriteAt (ascii "B") (ascii "w") 9,
    .deliver 1 (ascii "A") {}, .acknowledge 1, .restart (ascii "A"), .deliver 0 (ascii "B") {}])
    (by decide +kernel)

/-- `B` leads in term 9 and has not accepted it. Its write is acknowledged, and so is one that `A`
orders in term 5 afterwards, which stands nowhere but at `B` and is older. -/
theorem not_lasting_unfenced :
    let s := run (Net.step JsonText.codec twoZones) (Net.start JsonText.codec)
      (claimedTwice ++ [orderWriteAt (ascii "B") (ascii "w") 9, .deliver 0 (ascii "A") {},
        .acknowledge 0, orderWriteAt (ascii "A") (ascii "v") 5, .deliver 1 (ascii "B") {},
        .acknowledge 1])
    s.acked = [1, 0] ∧ s.orders.map (fun o => (o.table, o.record, o.since)) =
        [(ascii "t", ⟨ascii "k", ascii "w", ⟨9, 1⟩⟩, []),
          (ascii "t", ⟨ascii "k", ascii "v", ⟨5, 1⟩⟩, [0])] ∧ ¬s.Lasting twoZones := by
  intro s
  have hacked : s.acked = [1, 0] := by decide +kernel
  have horders : s.orders.map (fun o => (o.table, o.record, o.since)) =
      [(ascii "t", ⟨ascii "k", ascii "w", ⟨9, 1⟩⟩, []),
        (ascii "t", ⟨ascii "k", ascii "v", ⟨5, 1⟩⟩, [0])] := by decide +kernel
  refine ⟨hacked, horders, fun h => ?_⟩
  have hfirst := congrArg (·[0]?) horders
  have hsecond := congrArg (·[1]?) horders
  simp only [List.getElem?_map] at hfirst hsecond
  obtain ⟨earlier, hearlier, hwas⟩ := Option.map_eq_some_iff.mp hfirst
  obtain ⟨later, hlater, his⟩ := Option.map_eq_some_iff.mp hsecond
  simp only [Prod.mk.injEq] at hwas his
  obtain ⟨htable, hrecord, -⟩ := hwas
  obtain ⟨htable', hrecord', hsince⟩ := his
  have hnewer := h.newer hearlier hlater (by rw [hacked]; exact List.mem_cons_self)
    (by rw [hsince]; exact List.mem_cons_self) (by rw [htable, htable']) (by rw [hrecord, hrecord'])
  rw [hrecord, hrecord'] at hnewer
  exact absurd hnewer (by decide)

end AsyncDatabase
