import AsyncDatabase.Library.JsonText
import AsyncDatabase.Membership
import AsyncDatabase.Router.Scans

/-!
# Who may say that a key is missing

Reads through a whole cluster: a client asks one node, which asks the copies in turn, and each
answers out of its own store or says that it holds less than it owns. `Vouched` is what such answers
are worth, and `vouched_iff` says for which clusters they are.
-/

namespace AsyncDatabase

open Bytes (ascii)
open Throwing

/-- Nodes that agree on one membership, each with a store, the partitions it vouches for, and what a
node that does not answer fails with. -/
structure Cluster where
  members : List Member
  clustered : Bool := true
  /-- The zone each node was configured in. -/
  zone : Bytes → Bytes
  node : Bytes → Node
  silent : Bytes → Option Bytes := fun _ => none
  instanceName : Bytes → Bytes := fun _ => []
  /-- Each node holds what the membership gives it. -/
  holding : ∀ name, (node name).holding = holdingsOf name members

namespace Cluster

variable (J : JsonCodec) (c : Cluster)

def unanswered (node error : Bytes) : Response :=
  errorResponse .storageError
    (ascii "Node \"" ++ node ++ ascii "\" did not answer: " ++ error ++ ascii ".")

/-- What surrounds a node of the cluster, for one way of sending requests on. -/
def around (self : Bytes) (forward : Bytes → Request → Response) : Seams where
  replicas key := copiesOf self (c.zone self) c.members (partitionOf key)
  copiesOf := copiesOf self (c.zone self) c.members
  peers := (c.members.map Member.node).filter (· ≠ self)
  isAlone := c.clustered ∧ c.members.length < 2
  instanceName := c.instanceName self
  forward

/-- What surrounds a node where a request is sent on no more than so many times: another node
answers with what its own route does. -/
def seams : ℕ → Bytes → Seams
  | 0, self => c.around self fun other _ => unanswered other []
  | depth + 1, self => c.around self fun other request =>
    match c.silent other with
    | some error => unanswered other error
    | none =>
      Node.respond (Node.routeKeys J (seams depth other) { request with forwarded := true })
        (c.node other)

/-- What a node answers a request with. -/
def answer (depth : ℕ) (self : Bytes) (request : Request) : Response :=
  Node.respond (Node.routeKeys J (c.seams J depth self) request) (c.node self)

end Cluster

/-- The record a node has of a key, in a table that it has. -/
def Node.recordOf (n : Node) (table key : Bytes) : Option Bytes :=
  if n.store.tables.has table then
    n.store.disk.families[table]?.bind fun family => family[Store.storeKey key]?
  else none

/-- The path of a record, and that of the records of a table. -/
def recordPath (table partition sort : Bytes) : List Bytes :=
  [ascii "table", table, ascii "key", partition] ++ if sort = [] then [] else [sort]

def rangePath (table : Bytes) : List Bytes := [ascii "table", table, ascii "key"]

/-- The request reads, and this is whether another node sent it on. -/
structure Request.Reads (request : Request) (forwarded : Bool) (path : List Bytes) : Prop where
  method : request.method = .get ∨ request.method = .head
  forwarded : request.forwarded = forwarded
  path : request.path = path

/-- A copy of the key's partition that vouches for it has no record of the key. -/
def Cluster.KnownAbsent (c : Cluster) (table key : Bytes) : Prop :=
  ∃ name, partitionOf key ∈ (c.node name).holding ∧ partitionOf key ∈ (c.node name).filled ∧
    (c.node name).recordOf table key = none

/-- **What an absence is worth**: a client that asks a node with the table is told that a key is
missing only where a copy that vouches for its partition has no record of it, and a copy that is
short of the partition says so and is passed over. -/
structure Vouched (J : JsonCodec) (c : Cluster) (table partition sort : Bytes) : Prop where
  read : ∀ depth self request, request.Reads false (recordPath table partition sort) →
    (c.node self).store.tables.has table = true →
    (c.answer J (depth + 1) self request).status = 404 →
    c.KnownAbsent table (Record.composeKey partition sort)
  scan : ∀ depth self request, request.Reads false (rangePath table) →
    Scan.readPartition request.query = some (partitionOf (Record.composeKey partition sort)) →
    (c.node self).store.tables.has table = true →
    (c.answer J (depth + 1) self request).status = 404 →
    c.KnownAbsent table (Record.composeKey partition sort)
  short : ∀ depth name request, request.Reads true (recordPath table partition sort) →
    (∃ record, Node.parseRequest request partition sort = .ok record) → c.silent name = none →
    (c.node name).isShortOf (partitionOf (Record.composeKey partition sort)) = true →
    (c.node name).recordOf table (Record.composeKey partition sort) = none →
    c.answer J depth name request = Node.nodeIncomplete
  passed : ∀ depth self name nodes request answer,
    request.Reads false (recordPath table partition sort) →
    (∃ record, Node.parseRequest request partition sort = .ok record) → c.silent name = none →
    (c.node name).isShortOf (partitionOf (Record.composeKey partition sort)) = true →
    (c.node name).recordOf table (Record.composeKey partition sort) = none →
    Node.readRecord (c.seams J (depth + 1) self) request (name :: nodes) answer =
      Node.readRecord (c.seams J (depth + 1) self) request nodes Node.nodeIncomplete
  shortScan : ∀ depth name request, request.Reads true (rangePath table) →
    Scan.readPartition request.query = some (partitionOf (Record.composeKey partition sort)) →
    c.silent name = none →
    (c.node name).isShortOf (partitionOf (Record.composeKey partition sort)) = true →
    c.answer J depth name request = Node.nodeIncomplete
  /-- What a copy's own store says, where the node that a client asks is itself short. -/
  own : ∀ depth self, (c.node self).store.tables.has table = true →
    (c.node self).isShortOf (partitionOf (Record.composeKey partition sort)) = true →
    (c.node self).recordOf table (Record.composeKey partition sort) = none →
    Node.respond (Node.readHere (c.seams J depth self) table (Record.composeKey partition sort))
      (c.node self) = Node.nodeIncomplete

/-- A copy that is short of the key's partition has the table, if it answers, and has the family of
the table open, if it has the table. -/
def Cluster.ShortCopiesHave (c : Cluster) (table key : Bytes) : Prop :=
  ∀ name, (c.node name).isShortOf (partitionOf key) = true →
    (c.silent name = none → (c.node name).store.tables.has table = true) ∧
    ((c.node name).store.tables.has table = true → table ∈ (c.node name).store.disk.families)

/-! ### What one node answers -/

namespace Node

theorem status_nodeIncomplete : nodeIncomplete.status = 503 := rfl

/-- A walk of the copies ends with the answer of one of them, or with the one it started from. -/
theorem readRecord_cases (w : Seams) (request : Request) (nodes : List Bytes) (answer : Response) :
    readRecord w request nodes answer = answer ∨
      ∃ replica ∈ nodes, readRecord w request nodes answer = w.forward replica request := by
  induction nodes generalizing answer with
  | nil => exact Or.inl rfl
  | cons replica nodes ih =>
    rw [readRecord]
    split_ifs
    · exact Or.inr ⟨replica, List.mem_cons_self, rfl⟩
    · rcases ih (w.forward replica request) with h | ⟨other, hother, h⟩
      · exact Or.inr ⟨replica, List.mem_cons_self, h⟩
      · exact Or.inr ⟨other, List.mem_cons_of_mem _ hother, h⟩

/-- A copy that does not answer or cannot say is passed over. -/
theorem readRecord_passed {w : Seams} {request : Request} {replica : Bytes} {nodes : List Bytes}
    {answer : Response} (h : 500 ≤ (w.forward replica request).status) :
    readRecord w request (replica :: nodes) answer =
      readRecord w request nodes (w.forward replica request) := by
  rw [readRecord]
  exact if_neg (not_lt.mpr h)

variable {w : Seams} {n : Node}

theorem onStore_readRecord (hdb : w.db = {}) (name key : Bytes) :
    onStore (Store.readRecord w.db name key) n =
      match n.store.disk.families[name]? with
      | none => .error ⟨.tableNotFound, ascii "No table named \"" ++ name ++ ascii "\"."⟩ n
      | some family => .ok (family[Store.storeKey key]?.map Record.valueOf) n := by
  rw [hdb, onStore, Store.readRecord, run_bind, Store.tableHandle, run_bind_get]
  cases n.store.disk.families[name]? <;> rfl

/-- What a node's own store says of a key, where the database carries out what it is asked. -/
theorem respond_readHere (hdb : w.db = {}) (name key : Bytes) : respond (readHere w name key) n =
    match n.store.disk.families[name]? with
    | none => (StorageError.mk .tableNotFound
        (ascii "No table named \"" ++ name ++ ascii "\".")).response
    | some family =>
      match family[Store.storeKey key]? with
      | some value => textResponse 200 (Record.valueOf value)
      | none => if n.isShortOf (partitionOf key) then nodeIncomplete else emptyResponse 404 := by
  rw [respond, readHere, run_bind, onStore_readRecord hdb]
  cases n.store.disk.families[name]? with
  | none => rfl
  | some family =>
    dsimp only
    cases family[Store.storeKey key]? with
    | some value => rfl
    | none =>
      dsimp only [Option.map_none]
      rw [run_bind_get]
      split_ifs <;> rfl

theorem recordOf_eq_none {table key : Bytes}
    (h : n.store.tables.has table = true → ∀ family, n.store.disk.families[table]? = some family →
      family[Store.storeKey key]? = none) : n.recordOf table key = none := by
  unfold recordOf
  split_ifs with hhas
  · cases hfamily : n.store.disk.families[table]? with
    | none => rfl
    | some family => exact h hhas family hfamily
  · rfl

/-- What the store of a short copy says of a key that it has no record of: that the copy is short,
exactly where the family of the table is open. -/
theorem readHere_short_iff {table key : Bytes} (hdb : w.db = {})
    (hhas : n.store.tables.has table = true) (hshort : n.isShortOf (partitionOf key) = true) :
    (n.recordOf table key = none → respond (readHere w table key) n = nodeIncomplete) ↔
      table ∈ n.store.disk.families := by
  rw [respond_readHere hdb, ← Std.ExtTreeMap.isSome_getElem?_iff_mem]
  cases hfamily : n.store.disk.families[table]? with
  | none =>
    refine iff_of_false (fun h => ?_) Bool.false_ne_true
    have hanswer := h (recordOf_eq_none fun _ family hsome => by rw [hfamily] at hsome; cases hsome)
    have hstatus : (404 : ℕ) = 503 := congrArg Response.status hanswer
    omega
  | some family =>
    refine iff_of_true (fun hnone => ?_) rfl
    rw [recordOf, if_pos hhas, hfamily, Option.bind_some] at hnone
    dsimp only
    rw [hnone]
    exact if_pos hshort

theorem routeKeys_record {J : JsonCodec} {request : Request} {table partition sort : Bytes}
    (h : request.path = recordPath table partition sort) :
    routeKeys J w request = record w request table partition sort := by
  unfold routeKeys
  rw [h, recordPath]
  by_cases hsort : sort = []
  · simp [hsort]
  · simp [hsort]

theorem routeKeys_range {J : JsonCodec} {request : Request} {table : Bytes}
    (h : request.path = rangePath table) :
    routeKeys J w request = routeRange J w request table := by
  unfold routeKeys
  rw [h, rangePath]
  simp

/-- A read that another node sent here is answered out of this node's own store. -/
theorem respond_forwarded {J : JsonCodec} {request : Request} {table partition sort : Bytes}
    (h : request.Reads true (recordPath table partition sort)) :
    respond (routeKeys J w request) n =
      match parseRequest request partition sort with
      | .error refused => refused.response
      | .ok _ => respond (readHere w table (Record.composeKey partition sort)) n := by
  have hverb : isRecordVerb request.method = true := by
    rcases h.method with hmethod | hmethod <;> rw [hmethod] <;> rfl
  have hput : request.method ≠ .put := by
    rcases h.method with hmethod | hmethod <;> rw [hmethod] <;> decide
  rw [routeKeys_record h.path, Node.record, if_pos h.forwarded, routeForwardedRecord, hverb]
  cases hparse : parseRequest request partition sort with
  | error refused => rfl
  | ok record =>
    dsimp only
    rw [if_neg (by simp), if_pos hput, key_of_parseRequest hparse]

/-- A scan that another node sent here is answered out of this node's own store, or by one that is
short of the partition not at all. -/
theorem respond_forwardedScan {J : JsonCodec} {request : Request} {table : Bytes}
    (h : request.Reads true (rangePath table)) {named : Partition}
    (hnamed : Scan.readPartition request.query = some named) :
    respond (routeKeys J w request) n =
      if n.store.tables.has table then
        if n.isShortOf named then nodeIncomplete else respond (answerPage J w request table) n
      else tableNotFound table := by
  have hmethod : ¬(request.method ≠ .get ∧ request.method ≠ .head) := by
    rcases h.method with hmethod | hmethod <;> simp [hmethod]
  rw [routeKeys_range h.path, routeRange, if_neg hmethod, scanRecords,
    if_neg (by simp [h.forwarded]), respond, run_bind_get]
  by_cases hhas : n.store.tables.has table = true
  · rw [if_pos hhas]
    simp only [hhas, hnamed, h.forwarded, Bool.not_true, Bool.false_eq_true, if_false, if_true]
    by_cases hshort : n.isShortOf named = true
    · simp only [hshort]
      rfl
    · simp [hshort, respond]
  · simp only [hhas]
    rfl

theorem status_of_parseKey {key : Bytes} {refused : ErrorMessage}
    (h : Record.parseKey key = .error refused) : refused.response.status ≠ 404 := by
  unfold Record.parseKey at h
  split_ifs at h <;> cases h <;> decide

/-- A page is never an absence, where the table's family is open. -/
theorem status_answerPage {J : JsonCodec} {request : Request} {table : Bytes} (hdb : w.db = {})
    (hfamily : table ∈ n.store.disk.families) :
    (respond (answerPage J w request table) n).status ≠ 404 := by
  obtain ⟨family, hheld⟩ :=
    Option.isSome_iff_exists.mp (Std.ExtTreeMap.isSome_getElem?_iff_mem.mpr hfamily)
  unfold answerPage
  cases hparse : Scan.parseRange J request.query w.instanceName with
  | error refused =>
    have hstatus := Scan.status_of_parseRange hparse
    change refused.response.status ≠ 404
    omega
  | ok range =>
    have hscan : onStore (Store.scanRecords w.db table range) n =
        .ok (Scan.fill range (Store.scanned family range) {} 0) n := by
      rw [hdb, onStore, Store.scanRecords, run_bind, Store.tableHandle, run_bind_get, hheld]
      rfl
    dsimp only
    rw [respond, run_bind, hscan]
    change 200 ≠ 404
    decide

/-- A walk that starts from no answer ends with an absence only where a copy answers with one. -/
theorem absent_of_readRecord {request : Request} {nodes : List Bytes}
    (h : (readRecord w request nodes nobodyAnswered).status = 404) :
    ∃ replica ∈ nodes, (w.forward replica request).status = 404 := by
  rcases readRecord_cases w request nodes nobodyAnswered with hnone | ⟨replica, hmem, heq⟩
  · rw [hnone] at h
    exact absurd h (by decide)
  · exact ⟨replica, hmem, heq ▸ h⟩

/-- A client is told that a key is missing on the word of a copy, or of this node's own. -/
theorem absent_record {J : JsonCodec} {request : Request} {table partition sort : Bytes}
    (hdb : w.db = {}) (h : request.Reads false (recordPath table partition sort))
    (hhas : n.store.tables.has table = true)
    (hstatus : (respond (routeKeys J w request) n).status = 404) :
    (∃ replica ∈ (w.replicas (Record.composeKey partition sort)).nodes,
        (w.forward replica request).status = 404) ∨
      (w.replicas (Record.composeKey partition sort)).isLocal = true ∧
        (respond (readHere w table (Record.composeKey partition sort)) n).status = 404 := by
  have hverb : isRecordVerb request.method = true := by
    rcases h.method with hmethod | hmethod <;> rw [hmethod] <;> rfl
  have hput : request.method ≠ .put := by
    rcases h.method with hmethod | hmethod <;> rw [hmethod] <;> decide
  rw [routeKeys_record h.path, Node.record, if_neg (by simp [h.forwarded]), routeRecord, hverb]
    at hstatus
  cases hparse : parseRequest request partition sort with
  | error refused =>
    rw [hparse] at hstatus
    -- a key that does not parse is refused as what it is
    refine absurd hstatus ?_
    rw [parseRequest, if_neg hput] at hparse
    exact status_of_parseKey hparse
  | ok record =>
    rw [hparse] at hstatus
    rw [← key_of_parseRequest hparse]
    dsimp only at hstatus
    rw [if_neg (by simp), respond, run_bind_get] at hstatus
    by_cases halone : w.isAlone = true
    · -- a node that is alone says so
      rw [if_pos ⟨hput, halone⟩] at hstatus
      change nodeAlone.status = 404 at hstatus
      exact absurd hstatus (by decide)
    rw [if_neg (fun hno => halone hno.2), if_neg (by simp [hhas]), if_pos hput] at hstatus
    by_cases hlocal : (w.replicas record.key).isLocal = true
    · rw [if_neg (by simp [hlocal]), run_bind, onStore_readRecord hdb] at hstatus
      cases hheld : n.store.disk.families[table]? with
      -- the read of a table whose family is not open throws before any copy is asked
      | none => exact Or.inr ⟨hlocal, by rw [respond_readHere hdb, hheld]; rfl⟩
      | some family =>
        rw [hheld] at hstatus
        dsimp only at hstatus
        cases hvalue : family[Store.storeKey record.key]? with
        -- the copy here has the record
        | some value =>
          rw [hvalue] at hstatus
          change 200 = 404 at hstatus
          omega
        | none =>
          rw [hvalue] at hstatus
          dsimp only [Option.map_none] at hstatus
          -- what is not here is asked of the other copies first
          by_cases hnodes : (w.replicas record.key).nodes = []
          · rw [if_neg (not_not.mpr hnodes)] at hstatus
            exact Or.inr ⟨hlocal, hstatus⟩
          · rw [if_pos hnodes] at hstatus
            exact Or.inl (absent_of_readRecord hstatus)
    · rw [if_pos (by simp [hlocal])] at hstatus
      exact Or.inl (absent_of_readRecord hstatus)

/-- A client whose scan is answered with an absence has it from a copy, or from this node, where it
is whole and has no family of the table open. -/
theorem absent_scan {J : JsonCodec} {request : Request} {table : Bytes} (hdb : w.db = {})
    (h : request.Reads false (rangePath table)) {named : Partition}
    (hnamed : Scan.readPartition request.query = some named)
    (hhas : n.store.tables.has table = true)
    (hstatus : (respond (routeKeys J w request) n).status = 404) :
    (∃ replica ∈ (w.copiesOf named).nodes, (w.forward replica request).status = 404) ∨
      ((w.copiesOf named).isLocal = true ∨ (w.copiesOf named).nodes = []) ∧
        n.isShortOf named = false ∧ table ∉ n.store.disk.families := by
  have hmethod : ¬(request.method ≠ .get ∧ request.method ≠ .head) := by
    rcases h.method with hmethod | hmethod <;> simp [hmethod]
  have hpage : (respond (answerPage J w request table) n).status = 404 →
      table ∉ n.store.disk.families := fun hpage hfamily =>
    status_answerPage hdb hfamily hpage
  rw [routeKeys_range h.path, routeRange, if_neg hmethod, scanRecords] at hstatus
  by_cases halone : w.isAlone = true
  · rw [if_pos (by simp [h.forwarded, halone])] at hstatus
    change nodeAlone.status = 404 at hstatus
    exact absurd hstatus (by decide)
  rw [if_neg (by simp [halone]), respond, run_bind_get, if_neg (by simp [hhas]), hnamed] at hstatus
  dsimp only at hstatus
  simp only [h.forwarded, Bool.false_eq_true, if_false] at hstatus
  split_ifs at hstatus with hlocal hnodes hwhole
  · exact Or.inr ⟨Or.inl hlocal.1, by simpa using hlocal.2, hpage hstatus⟩
  · exact Or.inl (absent_of_readRecord hstatus)
  · exact Or.inr ⟨Or.inr (not_not.mp hnodes), by simpa using hwhole, hpage hstatus⟩
  · change nodeIncomplete.status = 404 at hstatus
    exact absurd hstatus (by decide)

end Node

namespace Cluster

variable {J : JsonCodec} {c : Cluster} {table partition sort : Bytes}

@[simp] theorem db_seams (depth : ℕ) (self : Bytes) : (c.seams J depth self).db = {} := by
  cases depth <;> rfl

theorem replicas_seams (depth : ℕ) (self key : Bytes) : (c.seams J depth self).replicas key =
    copiesOf self (c.zone self) c.members (partitionOf key) := by
  cases depth <;> rfl

theorem copiesOf_seams (depth : ℕ) (self : Bytes) (named : Partition) :
    (c.seams J depth self).copiesOf named = copiesOf self (c.zone self) c.members named := by
  cases depth <;> rfl

/-- An absence comes from a node that answers. -/
theorem absent_forward {depth : ℕ} {self other : Bytes} {request : Request}
    (h : ((c.seams J (depth + 1) self).forward other request).status = 404) :
    c.silent other = none ∧
      (c.answer J depth other { request with forwarded := true }).status = 404 := by
  change (match c.silent other with
    | some error => unanswered other error
    | none => c.answer J depth other { request with forwarded := true }).status = 404 at h
  cases hsilent : c.silent other with
  | some error =>
    rw [hsilent] at h
    change (500 : ℕ) = 404 at h
    omega
  | none =>
    rw [hsilent] at h
    exact ⟨rfl, h⟩

theorem mem_filled_of_not_short {n : Node} {named : Partition} (hholds : named ∈ n.holding)
    (h : n.isShortOf named = false) : named ∈ n.filled := by
  by_contra hno
  rw [Node.isShortOf, decide_eq_false_iff_not] at h
  exact h ⟨hholds, hno⟩

/-- A node that holds the partition, is not short of it and has no family of the table knows that
there is no record. -/
theorem knownAbsent_of_not_open {name key : Bytes}
    (hholds : partitionOf key ∈ (c.node name).holding)
    (hwhole : (c.node name).isShortOf (partitionOf key) = false)
    (hclosed : table ∉ (c.node name).store.disk.families) : c.KnownAbsent table key := by
  refine ⟨name, hholds, mem_filled_of_not_short hholds hwhole,
    Node.recordOf_eq_none fun _ family hfamily => absurd ?_ hclosed⟩
  rw [← Std.ExtTreeMap.isSome_getElem?_iff_mem, hfamily]
  rfl

/-- An absence that a node has of its own store is one it can vouch for, unless it is short of the
partition and has no family of the table. -/
theorem knownAbsent_of_readHere {name key : Bytes} {w : Seams} (hdb : w.db = {})
    (hholds : partitionOf key ∈ (c.node name).holding)
    (hshort : (c.node name).isShortOf (partitionOf key) = true →
      table ∈ (c.node name).store.disk.families)
    (h : (Node.respond (Node.readHere w table key) (c.node name)).status = 404) :
    c.KnownAbsent table key := by
  rw [Node.respond_readHere hdb] at h
  cases hfamily : (c.node name).store.disk.families[table]? with
  | none =>
    have hclosed : table ∉ (c.node name).store.disk.families := by
      rw [← Std.ExtTreeMap.isSome_getElem?_iff_mem, hfamily]
      exact Bool.false_ne_true
    exact knownAbsent_of_not_open hholds
      (Bool.eq_false_iff.mpr fun hno => hclosed (hshort hno)) hclosed
  | some family =>
    rw [hfamily] at h
    dsimp only at h
    cases hvalue : family[Store.storeKey key]? with
    | some value =>
      rw [hvalue] at h
      change (200 : ℕ) = 404 at h
      omega
    | none =>
      rw [hvalue] at h
      dsimp only at h
      split_ifs at h with hno
      · rw [Node.status_nodeIncomplete] at h
        omega
      · refine ⟨name, hholds, mem_filled_of_not_short hholds (Bool.eq_false_iff.mpr hno),
          Node.recordOf_eq_none fun _ other hother => ?_⟩
        rw [hfamily] at hother
        obtain rfl := Option.some.inj hother
        exact hvalue

/-- A copy that is short and has the table open says that it is short. -/
theorem answer_short {depth : ℕ} {name : Bytes} {request : Request}
    (hhas : (c.node name).store.tables.has table = true)
    (hopen : table ∈ (c.node name).store.disk.families)
    (hreads : request.Reads true (recordPath table partition sort))
    (hparsed : ∃ record, Node.parseRequest request partition sort = .ok record)
    (hshort : (c.node name).isShortOf (partitionOf (Record.composeKey partition sort)) = true)
    (hnone : (c.node name).recordOf table (Record.composeKey partition sort) = none) :
    c.answer J depth name request = Node.nodeIncomplete := by
  obtain ⟨record, hparse⟩ := hparsed
  rw [answer, Node.respond_forwarded hreads, hparse]
  exact (Node.readHere_short_iff (db_seams _ _) hhas hshort).mpr hopen hnone

/-- A client that is told a key is missing was told so by a copy that vouches, or by one that has no
family of the table to read. -/
theorem knownAbsent_of_read (h : c.ShortCopiesHave table (Record.composeKey partition sort))
    {depth : ℕ} {self : Bytes} {request : Request}
    (hreads : request.Reads false (recordPath table partition sort))
    (hhas : (c.node self).store.tables.has table = true)
    (hstatus : (c.answer J (depth + 1) self request).status = 404) :
    c.KnownAbsent table (Record.composeKey partition sort) := by
  rcases Node.absent_record (db_seams _ _) hreads hhas hstatus with
    ⟨replica, hmem, hforward⟩ | ⟨hlocal, hhere⟩
  · obtain ⟨hsilent, hanswer⟩ := absent_forward hforward
    rw [replicas_seams] at hmem
    have hforwarded : ({ request with forwarded := true } : Request).Reads true
        (recordPath table partition sort) := ⟨hreads.method, rfl, hreads.path⟩
    rw [answer, Node.respond_forwarded hforwarded] at hanswer
    cases hparse : Node.parseRequest { request with forwarded := true } partition sort with
    -- the copy parses the same key as the node that passed the request on
    | error refused =>
      rw [hparse] at hanswer
      refine absurd hanswer ?_
      have hput : request.method ≠ .put := by
        rcases hreads.method with hmethod | hmethod <;> rw [hmethod] <;> decide
      rw [Node.parseRequest, if_neg hput] at hparse
      exact Node.status_of_parseKey hparse
    | ok record =>
      rw [hparse] at hanswer
      -- a copy that holds the partition and is whole knows that there is no record
      refine knownAbsent_of_readHere (db_seams _ _) ?_ (fun hshort => ?_) hanswer
      · rw [c.holding]
        exact mem_holdingsOf_of_copiesOf hmem
      · obtain ⟨hhave, hopen⟩ := h replica hshort
        exact hopen (hhave hsilent)
  · refine knownAbsent_of_readHere (db_seams _ _) ?_ (fun hshort => (h self hshort).2 hhas) hhere
    rw [replicas_seams, isLocal_copiesOf_iff] at hlocal
    rwa [c.holding]

theorem knownAbsent_of_scan (h : c.ShortCopiesHave table (Record.composeKey partition sort))
    {depth : ℕ} {self : Bytes} {request : Request} (hreads : request.Reads false (rangePath table))
    (hnamed : Scan.readPartition request.query =
      some (partitionOf (Record.composeKey partition sort)))
    (hhas : (c.node self).store.tables.has table = true)
    (hstatus : (c.answer J (depth + 1) self request).status = 404) :
    c.KnownAbsent table (Record.composeKey partition sort) := by
  rcases Node.absent_scan (db_seams _ _) hreads hnamed hhas hstatus with
    ⟨replica, hmem, hforward⟩ | ⟨hplace, hwhole, hclosed⟩
  · obtain ⟨hsilent, hanswer⟩ := absent_forward hforward
    rw [copiesOf_seams] at hmem
    have hholds := mem_holdingsOf_of_copiesOf hmem
    rw [← c.holding] at hholds
    have hforwarded : ({ request with forwarded := true } : Request).Reads true
        (rangePath table) := ⟨hreads.method, rfl, hreads.path⟩
    rw [answer, Node.respond_forwardedScan hforwarded hnamed] at hanswer
    split_ifs at hanswer with hreplica hshort
    · -- it was short, and says so
      rw [Node.status_nodeIncomplete] at hanswer
      omega
    · -- a page is no absence, but for a family that is not open
      exact knownAbsent_of_not_open hholds (Bool.eq_false_iff.mpr hshort) fun hopen =>
        Node.status_answerPage (db_seams _ _) hopen hanswer
    · have hwhole := Bool.eq_false_iff.mpr fun hno => hreplica ((h replica hno).1 hsilent)
      exact ⟨replica, hholds, mem_filled_of_not_short hholds hwhole,
        Node.recordOf_eq_none fun hyes => absurd hyes hreplica⟩
  · -- this node is a copy, since there is no other one or it was asked as one
    rw [copiesOf_seams] at hplace
    refine knownAbsent_of_not_open ?_ hwhole hclosed
    rw [c.holding, ← isLocal_copiesOf_iff]
    exact hplace.elim id isLocal_of_nodes_copiesOf

/-- A short copy that is asked by another node says that it is short. -/
theorem forward_short (h : c.ShortCopiesHave table (Record.composeKey partition sort))
    {depth : ℕ} {self name : Bytes} {request : Request}
    (hreads : request.Reads false (recordPath table partition sort))
    (hparsed : ∃ record, Node.parseRequest request partition sort = .ok record)
    (hsilent : c.silent name = none)
    (hshort : (c.node name).isShortOf (partitionOf (Record.composeKey partition sort)) = true)
    (hnone : (c.node name).recordOf table (Record.composeKey partition sort) = none) :
    (c.seams J (depth + 1) self).forward name request = Node.nodeIncomplete := by
  change (match c.silent name with
    | some error => unanswered name error
    | none => c.answer J depth name { request with forwarded := true }) = _
  obtain ⟨hhave, hopen⟩ := h name hshort
  rw [hsilent]
  exact answer_short (hhave hsilent) (hopen (hhave hsilent)) ⟨hreads.method, rfl, hreads.path⟩
    hparsed hshort hnone

/-- **What is known of an absence**, where every copy that is short of the partition has the table
and its family. -/
theorem vouched_of_shortCopiesHave
    (h : c.ShortCopiesHave table (Record.composeKey partition sort)) :
    Vouched J c table partition sort where
  read _ _ _ hreads hhas hstatus := knownAbsent_of_read h hreads hhas hstatus
  scan _ _ _ hreads hnamed hhas hstatus := knownAbsent_of_scan h hreads hnamed hhas hstatus
  short depth name request hreads hparsed hsilent hshort hnone := by
    obtain ⟨hhave, hopen⟩ := h name hshort
    exact answer_short (hhave hsilent) (hopen (hhave hsilent)) hreads hparsed hshort hnone
  passed depth self name nodes request answer hreads hparsed hsilent hshort hnone := by
    have hforward : (c.seams J (depth + 1) self).forward name request = Node.nodeIncomplete :=
      forward_short h hreads hparsed hsilent hshort hnone
    rw [Node.readRecord_passed (by rw [hforward]; decide), hforward]
  shortScan depth name request hreads hnamed hsilent hshort := by
    rw [answer, Node.respond_forwardedScan hreads hnamed, if_pos ((h name hshort).1 hsilent),
      if_pos hshort]
  own depth self hhas hshort :=
    (Node.readHere_short_iff (db_seams _ _) hhas hshort).mpr ((h self hshort).2 hhas)

end Cluster

/-- A partition named by its number. -/
theorem Scan.readPartition_named : ∀ named : Partition,
    Scan.readPartition (ascii "partition=" ++ Bytes.decimal named) = some named := by
  decide +kernel

/-- **In which clusters a key is missing only on the word of a copy that vouches**: those in which
every copy that is short of the key's partition has the table, if it answers, and the family of the
table, if it has the table. -/
theorem vouched_iff (J : JsonCodec) (c : Cluster) (table partition sort : Bytes) :
    Vouched J c table partition sort ↔
      c.ShortCopiesHave table (Record.composeKey partition sort) := by
  refine ⟨fun h name hshort => ⟨fun hsilent => ?_, fun hhas => ?_⟩,
    Cluster.vouched_of_shortCopiesHave⟩
  · -- a copy that lacks the table answers a scan of the partition with that, short or not
    let request : Request :=
      { method := .get
        path := rangePath table
        query := ascii "partition=" ++
          Bytes.decimal (partitionOf (Record.composeKey partition sort))
        forwarded := true }
    have hreads : request.Reads true (rangePath table) := ⟨Or.inl rfl, rfl, rfl⟩
    have hanswer := h.shortScan 0 name request hreads (Scan.readPartition_named _) hsilent hshort
    by_contra hno
    rw [Cluster.answer, Node.respond_forwardedScan hreads (Scan.readPartition_named _),
      if_neg hno] at hanswer
    have hstatus : (404 : ℕ) = 503 := congrArg Response.status hanswer
    omega
  · -- one that has no family of the table throws before it asks whether it is short
    exact (Node.readHere_short_iff (Cluster.db_seams _ _) hhas hshort).mp (h.own 0 name hhas hshort)

/-! ### A copy that never heard of the table -/

/-- Three nodes in three zones: one that has the table and is short of everything, one that has just
joined, and one that holds the record and vouches for it. -/
def joiningCluster : Cluster where
  members := [⟨ascii "A", ascii "a"⟩, ⟨ascii "B", ascii "b"⟩, ⟨ascii "C", ascii "c"⟩]
  zone name :=
    if name = ascii "A" then ascii "a" else if name = ascii "B" then ascii "b" else ascii "c"
  node name :=
    let fresh := (Node.fresh JsonText.codec).store
    let created := after (Store.createTable JsonText.codec {} ⟨ascii "t", []⟩ ⟨1, 1⟩ fresh)
    let written := after (Store.writeRecord {} (ascii "t") ⟨ascii "k", ascii "v", ⟨2, 1⟩⟩ created)
    { store := if name = ascii "A" then created else if name = ascii "C" then written else fresh
      holding := holdingsOf name
        [⟨ascii "A", ascii "a"⟩, ⟨ascii "B", ascii "b"⟩, ⟨ascii "C", ascii "c"⟩]
      filled := if name = ascii "C" then Finset.univ else ∅ }
  holding _ := rfl

/-- A client of `A` is told that the key `k` is missing, on the word of `B`, which has just joined
and has no table, while the one copy that vouches holds the record. -/
theorem not_vouched_joining :
    (joiningCluster.answer JsonText.codec 1 (ascii "A")
        { method := .get, path := recordPath (ascii "t") (ascii "k") [] }).status = 404 ∧
      ¬joiningCluster.KnownAbsent (ascii "t") (ascii "k") ∧
      ¬Vouched JsonText.codec joiningCluster (ascii "t") (ascii "k") [] := by
  have hstatus : (joiningCluster.answer JsonText.codec 1 (ascii "A")
      { method := .get, path := recordPath (ascii "t") (ascii "k") [] }).status = 404 := by
    decide +kernel
  have habsent : ¬joiningCluster.KnownAbsent (ascii "t") (ascii "k") := by
    rintro ⟨name, -, hfilled, hnone⟩
    by_cases hname : name = ascii "C"
    · subst hname
      exact absurd hnone (by decide +kernel)
    · have hempty : (joiningCluster.node name).filled = ∅ := if_neg hname
      rw [hempty] at hfilled
      exact absurd hfilled (Finset.notMem_empty _)
  refine ⟨hstatus, habsent, fun h => habsent ?_⟩
  exact h.read 0 (ascii "A") { method := .get, path := recordPath (ascii "t") (ascii "k") [] }
    ⟨Or.inl rfl, rfl, rfl⟩ (by decide +kernel) hstatus

end AsyncDatabase
