import AsyncDatabase.Absence
import AsyncDatabase.Library.Run
import AsyncDatabase.Operations

/-!
# Attempts at a delete

A delete of a table as the node that leads the tables orders it: it drops its own copy, hands the
delete to every other node of its membership, and answers once none of them refused. An attempt that
some node refuses is run again (`Deleting.step`). What a finished delete leaves behind, on every
node, is a tombstone that no older table comes back over (`Schema.Buried`); `buried_iff` says when
it does.
-/

namespace AsyncDatabase

open Bytes (ascii)
open Machine Throwing

namespace Schema

/-- The name stands for nothing, as of the version or a later one. -/
def Buried (name : Bytes) (stamp : Version) (s : Schema) : Prop :=
  ∃ tombstone ∈ s.entries[name]?, tombstone.declared = none ∧
    stamp.isNewer tombstone.stamp = false

/-- Where a schema has the table live, it has it from before the version. -/
def Before (name : Bytes) (stamp : Version) (s : Schema) : Prop :=
  ∀ entry ∈ s.entries[name]?, entry.declared.isSome = true → stamp.isNewer entry.stamp = true

theorem buried_remove (s : Schema) (name : Bytes) (stamp : Version) :
    (s.remove name stamp).Buried name stamp := by
  refine ⟨⟨stamp, none⟩, ?_, rfl, ?_⟩
  · rw [Option.mem_def, remove, getElem?_put, if_pos rfl]
  · rw [← Bool.not_eq_true, Version.isNewer_iff_rank_lt]
    exact lt_irrefl _

theorem Buried.has {name : Bytes} {stamp : Version} {s : Schema} (h : s.Buried name stamp) :
    s.has name = false := by
  obtain ⟨tombstone, hmem, hnone, -⟩ := h
  rw [Schema.has, declared?, readEntry, Option.mem_def.mp hmem, Option.bind_some, hnone]
  rfl

/-- **A table from before is not taken back over a tombstone.** -/
theorem Buried.merge {name : Bytes} {stamp : Version} {s named : Schema} (h : s.Buried name stamp)
    (hbefore : named.Before name stamp) : (s.merge named).1.Buried name stamp := by
  obtain ⟨tombstone, hmem, hnone, hnewer⟩ := h
  have hheld : stamp.rank ≤ tombstone.rank := by
    rw [← Bool.not_eq_true, Version.isNewer_iff_rank_lt, not_lt] at hnewer
    exact hnewer
  have hjoin := getElem?_merge s named name
  rw [Option.mem_def.mp hmem] at hjoin
  cases hentry : named.entries[name]? with
  | none =>
    rw [hentry] at hjoin
    exact ⟨tombstone, hjoin, hnone, hnewer⟩
  | some entry =>
    rw [hentry, Newest.join] at hjoin
    split_ifs at hjoin with hlt
    · -- what replaces the tombstone is newer than the version, so it is no table from before
      have hentryNone : entry.declared = none := by
        rw [← Option.not_isSome_iff_eq_none]
        intro hlive
        have holder := Version.isNewer_iff_rank_lt.mp (hbefore entry hentry hlive)
        exact absurd (hheld.trans_lt hlt) (not_lt.mpr holder.le)
      refine ⟨entry, hjoin, hentryNone, ?_⟩
      rw [← Bool.not_eq_true, Version.isNewer_iff_rank_lt, not_lt]
      exact hheld.trans hlt.le
    · exact ⟨tombstone, hjoin, hnone, hnewer⟩

end Schema

namespace Store

variable (J : JsonCodec)

/-- What the store is once it has merged schemas, one after another, whatever the database
answered. -/
def mergedAll (s : Store) (heard : List (Database × Schema)) : Store :=
  heard.foldl (fun s one => after (mergeSchema J one.1 one.2 s)) s

theorem buried_mergedAll {name : Bytes} {stamp : Version} {s : Store}
    {heard : List (Database × Schema)} (hs : s.tables.Buried name stamp)
    (hheard : ∀ one ∈ heard, one.2.Before name stamp) :
    (s.mergedAll J heard).tables.Buried name stamp := by
  induction heard generalizing s with
  | nil => exact hs
  | cons one heard ih =>
    refine ih ?_ fun other hother => hheard other (List.mem_cons_of_mem _ hother)
    rw [tables_mergeSchema]
    exact hs.merge (hheard one List.mem_cons_self)

/-! ### What a delete of the store throws -/

theorem throwsOnly_check (status : Status) (what : Bytes) :
    ThrowsOnly (fun e : StorageError => 500 ≤ errorStatus e.code) (check status what) := by
  intro s e s' h
  cases status with
  | ok => cases h
  | stalled text =>
    cases h
    exact Nat.le_add_right 500 3
  | failed text =>
    cases h
    exact le_refl 500

theorem throwsOnly_deleteTable (db : Database) (name : Bytes) (stamp : Version) :
    ThrowsOnly (fun e => 500 ≤ errorStatus e.code) (deleteTable J db name stamp) := by
  have hdrop : ThrowsOnly (fun e : StorageError => 500 ≤ errorStatus e.code) (dropFamily db name) :=
    throwsOnly_get.bind fun s =>
      ((throwsOnly_check _ _).bind fun _ => throwsOnly_set _).ite (throwsOnly_pure _)
  exact hdrop.bind fun _ => (throwsOnly_modify _).bind fun _ =>
    (throwsOnly_check _ _).bind fun _ => throwsOnly_modify _

theorem throwsOnly_nextCount (db : Database) :
    ThrowsOnly (fun e => 500 ≤ errorStatus e.code) (nextCount db) := by
  have hreserve :
    ThrowsOnly (fun e : StorageError => 500 ≤ errorStatus e.code) (reserveCounts db) :=
    throwsOnly_get.bind fun s => (throwsOnly_check _ _).bind fun _ => throwsOnly_set _
  have htake : ThrowsOnly (fun e : StorageError => 500 ≤ errorStatus e.code)
      (do modify fun t : Store => { t with counts := (t.counts + 1) % 2 ^ 64 }
          let t ← get
          pure t.counts : Action ℕ) :=
    (throwsOnly_modify _).bind fun _ => throwsOnly_get.bind fun _ => throwsOnly_pure _
  exact throwsOnly_get.bind fun s => (hreserve.bind fun _ => htake).ite htake

end Store

namespace Node

variable (J : JsonCodec)

theorem throwsOnly_onStore {P : StorageError → Prop} {α : Type} {x : Action α}
    (h : ThrowsOnly P x) : ThrowsOnly P (onStore x) := by
  intro n e n' hrun
  rw [onStore] at hrun
  cases hx : x n.store with
  | ok a s =>
    rw [hx] at hrun
    cases hrun
  | error thrown s =>
    rw [hx] at hrun
    cases hrun
    exact h n.store e s hx

/-- What `delete_table` does of an operation that is ordered before it asks any other node: its
answer, or the version with the answer that is given once no node refuses. -/
def dropOrdered (w : Seams) (request : Request) (name : Bytes) (order : Ordering) :
    Route (Except Response (Version × Response)) := do
  let stamp ← schemaStamp w request order
  let n ← get
  if !n.store.tables.has name then
    if order.carried then
      carryOut tablePartition stamp.term (Store.deleteTable J w.db name stamp)
      pure (.error (emptyResponse 204))
    else if n.isIncomplete then pure (.error nodeIncomplete)
    else pure (.ok (stamp, tableNotFound name))
  else
    carryOut tablePartition stamp.term (Store.deleteTable J w.db name stamp)
    pure (.ok (stamp, emptyResponse 204))

/-- What is left of `delete_table` is to ask the other nodes. -/
theorem deleteOrdered_eq (w : Seams) (request : Request) (name : Bytes) (order : Ordering) :
    deleteOrdered J w request name order =
      dropOrdered J w request name order >>= fun dropped =>
        match dropped with
        | .error answer => pure answer
        | .ok (stamp, done) => pure (carriedOut w request order stamp done) := by
  funext n
  unfold deleteOrdered dropOrdered
  rw [run_bind, run_bind, run_bind]
  cases schemaStamp w request order n with
  | error e n' => rfl
  | ok stamp n' =>
    dsimp only
    rw [run_bind_get, run_bind_get]
    split_ifs
    · rw [run_bind, run_bind]
      cases carryOut tablePartition stamp.term (Store.deleteTable J w.db name stamp) n' <;> rfl
    · rfl
    · rfl
    · rw [run_bind, run_bind]
      cases carryOut tablePartition stamp.term (Store.deleteTable J w.db name stamp) n' <;> rfl

theorem throwsOnly_dropOrdered (w : Seams) (request : Request) (name : Bytes) (order : Ordering) :
    ThrowsOnly (fun e => 500 ≤ errorStatus e.code) (dropOrdered J w request name order) := by
  have hcarry : ∀ stamp : Version, ThrowsOnly (fun e : StorageError => 500 ≤ errorStatus e.code)
      (carryOut tablePartition stamp.term (Store.deleteTable J w.db name stamp)) := fun stamp =>
    (throwsOnly_onStore (Store.throwsOnly_deleteTable J w.db name stamp)).bind fun _ =>
      throwsOnly_modify _
  have hstamp : ThrowsOnly (fun e : StorageError => 500 ≤ errorStatus e.code)
      (schemaStamp w request order) :=
    (throwsOnly_pure _).ite
      ((throwsOnly_onStore (Store.throwsOnly_nextCount w.db)).bind fun _ => throwsOnly_pure _)
  refine hstamp.bind fun stamp => throwsOnly_get.bind fun n => ThrowsOnly.ite ?_ ?_
  · refine ThrowsOnly.ite ((hcarry stamp).bind fun _ => throwsOnly_pure _) ?_
    exact (throwsOnly_pure _).ite (throwsOnly_pure _)
  · exact (hcarry stamp).bind fun _ => throwsOnly_pure _

/-- The node takes a delete that is carried to it in a term. -/
def TakesDelete (db : Database) (term : ℤ) (name : Bytes) (n : Node) : Prop :=
  n.accepted tablePartition ≤ term ∧
    Store.AltersFamily db n.store ⟨name, false⟩ ∧ db.putSchema = .ok

instance (db : Database) (term : ℤ) (name : Bytes) (n : Node) :
    Decidable (n.TakesDelete db term name) :=
  inferInstanceAs (Decidable (n.accepted tablePartition ≤ term ∧
    Store.AltersFamily db n.store ⟨name, false⟩ ∧ db.putSchema = .ok))

/-- The node that leads the tables gets as far as to hand its delete on: it has a count for it, and
has dropped the table, or has none and can vouch for that. -/
def HandsOn (w : Seams) (request : Request) (name : Bytes) (n : Node) : Prop :=
  (n.stampOf w request).isSome = true ∧
    if n.store.tables.has name then
      Store.AltersFamily w.db n.store ⟨name, false⟩ ∧ w.db.putSchema = .ok
    else n.isIncomplete = false

instance (w : Seams) (request : Request) (name : Bytes) (n : Node) :
    Decidable (n.HandsOn w request name) :=
  inferInstanceAs (Decidable ((n.stampOf w request).isSome = true ∧
    if n.store.tables.has name then
      Store.AltersFamily w.db n.store ⟨name, false⟩ ∧ w.db.putSchema = .ok
    else n.isIncomplete = false))

variable {J} {w : Seams} {request : Request} {name : Bytes} {n : Node}

theorem respond_carryOut_pure (partition : Partition) (term : ℤ) (x : Action Unit) (done : Response)
    (n : Node) :
    respond (carryOut partition term x >>= fun _ => pure done) n =
      match x n.store with
      | .ok _ _ => done
      | .error thrown _ => thrown.response := by
  rw [respond, run_bind]
  rcases carryOut_cases partition term x n with ⟨s, hx, h⟩ | ⟨e, s, hx, h⟩
  · rw [h, hx]
    rfl
  · rw [h, hx]

/-- What a node answers a delete that was carried to it, and what that leaves. -/
theorem deleteTable_carried (J : JsonCodec) (w : Seams) (n : Node) (name : Bytes)
    (hterm : request.term ≠ 0) :
    (n.TakesDelete w.db request.term name ∧
        (respond (deleteTable J w request name) n).status = 204 ∧
        (after (deleteTable J w request name n)).store.tables =
          n.store.tables.remove name ⟨request.term, request.count⟩) ∨
      (¬n.TakesDelete w.db request.term name ∧
        409 ≤ (respond (deleteTable J w request name) n).status) := by
  by_cases hfence : n.accepted tablePartition ≤ request.term
  · have haccept : orderSchema w request n =
        .ok (.ok { carried := true }) (n.raise tablePartition request.term) := by
      rcases orderSchema_cases w request n with ⟨-, -, h⟩ | ⟨hno, -⟩ | ⟨hrefused, -⟩
      · exact h
      · exact absurd hno hterm
      · exact absurd (hrefused hterm) (not_lt.mpr hfence)
    -- whether the node had the table or not, it drops it and answers
    obtain ⟨done, hrun⟩ : ∃ done : Response, done.status = 204 ∧
        deleteTable J w request name n =
          (carryOut tablePartition request.term (Store.deleteTable J w.db name
            ⟨request.term, request.count⟩) >>= fun _ => pure done)
            (n.raise tablePartition request.term) := by
      rw [deleteTable, run_bind, haccept]
      dsimp only
      unfold deleteOrdered schemaStamp
      simp only [if_true, run_bind_pure, run_bind_get]
      split_ifs
      · exact ⟨emptyResponse 204, rfl, rfl⟩
      · exact ⟨emptyResponse 204, rfl, rfl⟩
    obtain ⟨hstatus, hrun⟩ := hrun
    have hanswer : respond (deleteTable J w request name) n =
        match Store.deleteTable J w.db name ⟨request.term, request.count⟩ n.store with
        | .ok _ _ => done
        | .error thrown _ => thrown.response := by
      rw [respond, hrun]
      exact respond_carryOut_pure tablePartition request.term _ done _
    have htables : (after (deleteTable J w request name n)).store.tables =
        if Store.AltersFamily w.db n.store ⟨name, false⟩ then
          n.store.tables.remove name ⟨request.term, request.count⟩ else n.store.tables := by
      rw [hrun, store_carryOut_pure, Store.tables_deleteTable]
      rfl
    have hthrows := Store.throwsOnly_deleteTable J w.db name ⟨request.term, request.count⟩ n.store
    rcases Store.deleteTable_cases J w.db name ⟨request.term, request.count⟩ n.store with
      ⟨halters, hput, h⟩ | ⟨hfails, e, h⟩ | ⟨-, hput, e, h⟩
    · rw [hanswer, htables, h, if_pos halters]
      exact Or.inl ⟨⟨hfence, halters, hput⟩, hstatus, rfl⟩
    · rw [hanswer, h]
      exact Or.inr ⟨fun htakes => hfails htakes.2.1, le_trans (by omega) (hthrows _ _ h)⟩
    · rw [hanswer, h]
      exact Or.inr ⟨fun htakes => hput htakes.2.2, le_trans (by omega) (hthrows _ _ h)⟩
  · right
    refine ⟨fun htakes => hfence htakes.1, ?_⟩
    have haccept : accept tableKey request.term n =
      .ok false (n.raise tablePartition request.term) := by
      rw [accept, if_neg hterm]
      exact congrArg (EStateM.Result.ok · _) (decide_eq_false hfence)
    have hrun : respond (deleteTable J w request name) n = errorResponse .staleLeader
        (ascii "The tables are led in a later term than the one that ordered this.") := by
      rw [respond, deleteTable, run_bind, orderSchema, if_pos hterm, run_bind, haccept]
      rfl
    rw [hrun]
    exact le_refl 409

theorem term_stampOf {stamp : Version} (hterm : request.term = 0)
    (h : n.stampOf w request = some stamp) : stamp.term = (w.leader tableKey).term := by
  unfold stampOf at h
  rw [if_neg (not_not.mpr hterm)] at h
  cases hcount : Store.nextCount w.db n.store with
  | ok count s =>
    rw [hcount] at h
    rw [← Option.some.inj h]
  | error e s =>
    rw [hcount] at h
    cases h

/-- What the node that orders a delete does before it hands it on. -/
theorem dropOrdered_led (J : JsonCodec) (w : Seams) (name : Bytes) (request : Request)
    (order : Ordering) {n' : Node} (horder : order.carried = false)
    (hterm : request.term = 0) (hled : order.term = (w.leader tableKey).term)
    (hstore : n'.store = n.store) (hincomplete : n'.isIncomplete = n.isIncomplete) :
    (n.HandsOn w request name ∧ ∃ stamp done m, n.stampOf w request = some stamp ∧
        (done.status = 204 ∨ done.status = 404) ∧
        dropOrdered J w request name order n' = .ok (.ok (stamp, done)) m ∧
        m.store.tables =
          if n.store.tables.has name then n.store.tables.remove name stamp else n.store.tables) ∨
      (¬n.HandsOn w request name ∧
        ((∃ m, dropOrdered J w request name order n' = .ok (.error nodeIncomplete) m) ∨
          ∃ e m, dropOrdered J w request name order n' = .error e m)) := by
  have hcarried : order.carried = true ↔ request.term ≠ 0 := by simp [horder, hterm]
  unfold dropOrdered
  rcases schemaStamp_stampOf (w := w) hstore hcarried fun _ => hled with
    ⟨stamp, s, hstamp, hsame, hrun⟩ | ⟨e, s, hstamp, hsame, hrun⟩
  · rw [run_bind, hrun]
    dsimp only
    rw [run_bind_get]
    simp only [hsame.tables, HandsOn, hstamp, Option.isSome_some, true_and]
    -- whether there is a table, and whether the node may tell that there is none
    cases hhas : n.store.tables.has name with
    | false =>
      simp only [Bool.not_false, if_true, horder, Bool.false_eq_true, if_false]
      cases hshort : n.isIncomplete with
      | true =>
        right
        refine ⟨by simp, Or.inl ⟨{ n' with store := s }, ?_⟩⟩
        rw [if_pos (show ({ n' with store := s } : Node).isIncomplete = true from
          hincomplete.trans hshort)]
        rfl
      | false =>
        left
        have hwhole : ({ n' with store := s } : Node).isIncomplete = false :=
          hincomplete.trans hshort
        refine ⟨rfl, stamp, tableNotFound name, { n' with store := s }, rfl, Or.inr rfl, ?_, ?_⟩
        · rw [if_neg (by simp [hwhole])]
          rfl
        · simpa using hsame.tables
    | true =>
      simp only [Bool.not_true, Bool.false_eq_true, if_false, if_true]
      rw [run_bind, carryOut, run_bind, onStore]
      -- the family is dropped and the record put, or the leader throws
      rcases Store.deleteTable_cases J w.db name stamp s with ⟨halters, hput, h⟩ | ⟨hfails, e, h⟩ |
        ⟨-, hput, e, h⟩
      · rw [h]
        refine Or.inl ⟨⟨(altersFamily_congr hsame _).mp halters, hput⟩, stamp, emptyResponse 204, _,
          rfl, Or.inl rfl, rfl, ?_⟩
        exact congrArg (Schema.remove · name stamp) hsame.tables
      · rw [h]
        exact Or.inr ⟨fun hands => hfails ((altersFamily_congr hsame _).mpr hands.1),
          Or.inr ⟨e, _, rfl⟩⟩
      · rw [h]
        exact Or.inr ⟨fun hands => hput hands.2, Or.inr ⟨e, _, rfl⟩⟩
  · -- no count could be taken
    rw [run_bind, hrun]
    exact Or.inr ⟨fun hands => by simp [HandsOn, hstamp] at hands, Or.inr ⟨e, _, rfl⟩⟩

end Node

/-! ### Attempts -/

/-- An attempt at the delete of a table, as the node that leads the tables takes it up. A term is
the revision a claim was made at, and a node is registered once. -/
structure Attempt where
  leader : Bytes
  term : ℤ
  positive : 0 < term
  /-- The nodes the leader's membership lists. -/
  members : List Bytes
  nodup : members.Nodup
  request : Request
  name : Bytes
  /-- Whether the leader claimed the tables for this request. -/
  claimed : Bool := false
  /-- What the database of each node answers. -/
  db : Bytes → Database := fun _ => {}
  /-- What the node that does not answer in time fails with. -/
  silent : Bytes → Option Bytes := fun _ => none
  /-- Whether the delete arrives at a node that does not answer in time. -/
  arrives : Bytes → Bool := fun _ => false

namespace Attempt

variable (J : JsonCodec) (a : Attempt)

/-- `etcd_cluster::peers`. -/
def peers : List Bytes := a.members.filter (· ≠ a.leader)

/-- The request of a client, which nobody has ordered. -/
def asked : Request := a.request.carried 0 0

/-- The request as a node gets it that it is handed on to. -/
def handed (request : Request) : Request := { request with forwarded := true }

/-- What surrounds a node that carries the delete out. -/
def around (other : Bytes) : Seams := { db := a.db other }

/-- What the nodes that the leader hands its delete on to answer with. -/
def seams (node : Bytes → Node) : Seams where
  db := a.db a.leader
  leader _ := { known := true, isLocal := true, node := a.leader, term := a.term }
  claimed _ := a.claimed
  peers := a.peers
  forward other request :=
    match a.silent other with
    | some error => Cluster.unanswered other error
    | none =>
      Node.respond (Node.deleteTable J (a.around other) (handed request) a.name) (node other)

end Attempt

/-- A delete that was answered as finished: the attempt, and the version it was ordered in. -/
structure Finished where
  attempt : Attempt
  stamp : Version

/-- The nodes, and the delete that finished with the last step, where one did. -/
structure Deleting where
  node : Bytes → Node
  finished : Option Finished := none

inductive DeletingEvent where
  | attempt (a : Attempt)
  /-- A node is handed something else that is about its schema, a late delete included. -/
  | handed (self : Bytes) (e : HandedEvent)

namespace Deleting

variable (J : JsonCodec)

/-- The nodes once the leader has handed its delete on. -/
def handedOn (s : Deleting) (a : Attempt) (leader : Node) (request : Request) : Bytes → Node :=
  fun self =>
    if self = a.leader then leader
    else if self ∈ a.peers ∧ (a.silent self = none ∨ a.arrives self = true) then
      after (Node.deleteTable J (a.around self) (Attempt.handed request) a.name (s.node self))
    else s.node self

/-- An attempt: the leader orders the delete, drops its own copy, hands it on and answers. -/
def attempt (s : Deleting) (a : Attempt) : Deleting :=
  let w := a.seams J s.node
  match Node.orderSchema w a.asked (s.node a.leader) with
  | .ok (.ok order) n =>
    match Node.dropOrdered J w a.asked a.name order n with
    | .ok (.ok (stamp, done)) n =>
      let answer := Node.carriedOut w a.asked order stamp done
      { node := s.handedOn J a n (a.asked.carried order.term stamp.count)
        finished := if answer.status = 204 ∨ answer.status = 404 then some ⟨a, stamp⟩ else none }
    | .ok (.error _) n => { node := Function.update s.node a.leader n }
    | .error _ n => { node := Function.update s.node a.leader n }
  | .ok (.error _) n => { node := Function.update s.node a.leader n }
  | .error _ n => { node := Function.update s.node a.leader n }

def step (s : Deleting) : DeletingEvent → Deleting
  | .attempt a => s.attempt J a
  | .handed self e => { node := Function.update s.node self ((s.node self).handedStep J e) }

/-- What is left of a delete that finished: every node of the leader's membership, and the leader
itself, holds its tombstone, and takes the table back from no node that has it from before. -/
def Left (s : Deleting) : Prop :=
  ∀ f ∈ s.finished, ∀ self ∈ f.attempt.leader :: f.attempt.members,
    (s.node self).store.tables.Buried f.attempt.name f.stamp ∧
      ∀ heard : List (Database × Schema), (∀ one ∈ heard, one.2.Before f.attempt.name f.stamp) →
        (((s.node self).store.mergedAll J heard).tables.has f.attempt.name) = false

/-- Where an attempt gets through, the leader has something to drop: a live table, or the tombstone
of a delete no older than this one. -/
def Drops (s : Deleting) : DeletingEvent → Prop
  | .attempt a =>
    let leader := s.node a.leader
    let w := a.seams J s.node
    leader.HandsOn w a.asked a.name →
      (∀ other ∈ a.peers,
        a.silent other = none ∧ (s.node other).TakesDelete (a.db other) a.term a.name) →
      leader.store.tables.has a.name = true ∨
        ∀ stamp ∈ leader.stampOf w a.asked, leader.store.tables.Buried a.name stamp
  | .handed .. => True

variable {J}

/-- A node takes the delete where it answers in time and carries out what it is handed. -/
def Takes (s : Deleting) (a : Attempt) (other : Bytes) : Prop :=
  a.silent other = none ∧ (s.node other).TakesDelete (a.db other) a.term a.name

/-- What a node that is handed the delete answers in the end: that it took it, or a refusal. -/
theorem forward_cases (s : Deleting) (a : Attempt) (count : ℕ) (other : Bytes) :
    let answer := (a.seams J s.node).forward other (a.asked.carried a.term count)
    (s.Takes a other ∧ answer.status = 204) ∨ (¬s.Takes a other ∧ 409 ≤ answer.status) := by
  intro answer
  have hterm : (Attempt.handed (a.asked.carried a.term count)).term ≠ 0 := a.positive.ne'
  cases hsilent : a.silent other with
  | some error =>
    have hanswer : answer = Cluster.unanswered other error := by
      simp only [answer, Attempt.seams, hsilent]
    rw [hanswer]
    refine Or.inr ⟨fun htakes => ?_, Nat.le_add_right 409 91⟩
    have hnone := htakes.1
    rw [hsilent] at hnone
    cases hnone
  | none =>
    have hanswer : answer = Node.respond (Node.deleteTable J (a.around other)
        (Attempt.handed (a.asked.carried a.term count)) a.name) (s.node other) := by
      simp only [answer, Attempt.seams, hsilent]
    rw [hanswer]
    rcases Node.deleteTable_carried J (a.around other) (s.node other) a.name hterm with
      ⟨htakes, hstatus, -⟩ | ⟨hno, hstatus⟩
    · exact Or.inl ⟨⟨hsilent, htakes⟩, hstatus⟩
    · exact Or.inr ⟨fun htakes => hno htakes.2, hstatus⟩

/-- The nodes that are handed a delete refuse it exactly where one of them does not take it. None
answers that there is no such table. -/
theorem refusal_cases (s : Deleting) (a : Attempt) (count : ℕ) :
    let answers := (a.seams J s.node).forwardAll a.peers (a.asked.carried a.term count)
    ((∀ other ∈ a.peers, s.Takes a other) ∧ refusal answers = none) ∨
      ((¬∀ other ∈ a.peers, s.Takes a other) ∧
        ∃ answer, refusal answers = some answer ∧ 409 ≤ answer.status) := by
  intro answers
  have hanswers : ∀ answer ∈ answers, ∃ other ∈ a.peers,
      answer = (a.seams J s.node).forward other (a.asked.carried a.term count) := by
    intro answer hmem
    obtain ⟨other, hother, rfl⟩ := List.mem_map.mp hmem
    exact ⟨other, hother, rfl⟩
  by_cases htakes : ∀ other ∈ a.peers, s.Takes a other
  · refine Or.inl ⟨htakes, refusal_eq_none_iff.mpr fun answer hmem => ?_⟩
    obtain ⟨other, hother, rfl⟩ := hanswers answer hmem
    rcases forward_cases (J := J) s a count other with ⟨-, hstatus⟩ | ⟨hno, -⟩
    · rw [hstatus]
      omega
    · exact absurd (htakes other hother) hno
  · obtain ⟨other, hother, hrefuses⟩ : ∃ other ∈ a.peers, ¬s.Takes a other := by
      simpa using htakes
    have hstatus :
        409 ≤ ((a.seams J s.node).forward other (a.asked.carried a.term count)).status := by
      rcases forward_cases (J := J) s a count other with ⟨hyes, -⟩ | ⟨-, hstatus⟩
      · exact absurd hyes hrefuses
      · exact hstatus
    obtain ⟨answer, hrefusal⟩ : ∃ answer, refusal answers = some answer := by
      rw [← Option.ne_none_iff_exists']
      intro hnone
      have hless := refusal_eq_none_iff.mp hnone _ (List.mem_map.mpr ⟨other, hother, rfl⟩)
      omega
    refine Or.inr ⟨htakes, answer, hrefusal, ?_⟩
    -- the refusal is the answer of some node, which is 204 or a refusal of its own
    obtain ⟨refuser, -, rfl⟩ := hanswers answer (List.mem_of_find?_eq_some hrefusal)
    have hhigh :
        400 ≤ ((a.seams J s.node).forward refuser (a.asked.carried a.term count)).status := by
      simpa using List.find?_some hrefusal
    rcases forward_cases (J := J) s a count refuser with ⟨-, h204⟩ | ⟨-, h409⟩
    · rw [h204] at hhigh
      omega
    · exact h409

/-- The leader takes its own order. -/
theorem orderSchema_attempt (s : Deleting) (a : Attempt) :
    Node.orderSchema (a.seams J s.node) a.asked (s.node a.leader) =
      .ok (.ok { peers := a.peers, term := a.term })
        ((s.node a.leader).led (a.seams J s.node) tableKey) :=
  Node.orderSchema_led rfl rfl rfl

/-- What the leader of an attempt does with its own copy. -/
theorem dropOrdered_attempt (s : Deleting) (a : Attempt) :
    let w := a.seams J s.node
    let leader := s.node a.leader
    let dropped := Node.dropOrdered J w a.asked a.name { peers := a.peers, term := a.term }
      (leader.led w tableKey)
    (leader.HandsOn w a.asked a.name ∧ ∃ stamp done m, leader.stampOf w a.asked = some stamp ∧
        (done.status = 204 ∨ done.status = 404) ∧ dropped = .ok (.ok (stamp, done)) m ∧
        m.store.tables = if leader.store.tables.has a.name then
          leader.store.tables.remove a.name stamp else leader.store.tables) ∨
      (¬leader.HandsOn w a.asked a.name ∧
        ((∃ m, dropped = .ok (.error Node.nodeIncomplete) m) ∨ ∃ e m, dropped = .error e m)) := by
  intro w leader dropped
  have hincomplete : (leader.led w tableKey).isIncomplete = leader.isIncomplete := by
    unfold Node.led
    split_ifs <;> rfl
  exact Node.dropOrdered_led J w a.name a.asked { peers := a.peers, term := a.term } rfl rfl rfl
    (Node.quiet_led w leader tableKey).store hincomplete

/-- An attempt whose leader has dropped its own copy is answered with what the others refuse, or
with what the leader did. -/
theorem attempt_of_dropped {s : Deleting} {a : Attempt} {stamp : Version} {done : Response}
    {m : Node} (hrun : Node.dropOrdered J (a.seams J s.node) a.asked a.name
      { peers := a.peers, term := a.term }
      ((s.node a.leader).led (a.seams J s.node) tableKey) = .ok (.ok (stamp, done)) m) :
    let answer := Node.carriedOut (a.seams J s.node) a.asked
      { peers := a.peers, term := a.term } stamp done
    s.attempt J a =
      { node := s.handedOn J a m (a.asked.carried a.term stamp.count)
        finished := if answer.status = 204 ∨ answer.status = 404 then some ⟨a, stamp⟩
          else none } := by
  unfold attempt
  dsimp only
  rw [orderSchema_attempt]
  dsimp only
  rw [hrun]

/-- A node that takes the delete has buried the table. -/
theorem buried_handedOn {s : Deleting} {a : Attempt} {leader : Node} {stamp : Version}
    (hterm : a.term = stamp.term) {other : Bytes} (hother : other ∈ a.peers)
    (htakes : s.Takes a other) :
    (s.handedOn J a leader (a.asked.carried a.term stamp.count) other).store.tables.Buried
      a.name stamp := by
  have hne : other ≠ a.leader := by simpa using (List.mem_filter.mp hother).2
  have hstamp : (⟨a.term, stamp.count⟩ : Version) = stamp := by rw [hterm]
  have hpositive : (Attempt.handed (a.asked.carried a.term stamp.count)).term ≠ 0 := a.positive.ne'
  unfold handedOn
  rw [if_neg hne, if_pos ⟨hother, Or.inl htakes.1⟩]
  rcases Node.deleteTable_carried J (a.around other) (s.node other) a.name hpositive with
    ⟨-, -, hburied⟩ | ⟨hno, -⟩
  · rw [hburied, ← hstamp]
    exact Schema.buried_remove _ _ _
  · exact absurd htakes.2 hno

/-- An attempt finishes where the leader hands its delete on and every other node takes it, and
every one of them has buried the table then. -/
theorem attempt_cases (s : Deleting) (a : Attempt) :
    let w := a.seams J s.node
    let leader := s.node a.leader
    (leader.HandsOn w a.asked a.name ∧ (∀ other ∈ a.peers, s.Takes a other) ∧
        ∃ stamp, leader.stampOf w a.asked = some stamp ∧
          (s.attempt J a).finished = some ⟨a, stamp⟩ ∧
          ((s.attempt J a).node a.leader).store.tables =
            (if leader.store.tables.has a.name then leader.store.tables.remove a.name stamp
              else leader.store.tables) ∧
          ∀ other ∈ a.peers,
            ((s.attempt J a).node other).store.tables.Buried a.name stamp) ∨
      (¬(leader.HandsOn w a.asked a.name ∧ ∀ other ∈ a.peers, s.Takes a other) ∧
        (s.attempt J a).finished = none) := by
  intro w leader
  rcases s.dropOrdered_attempt (J := J) a with
    ⟨hands, stamp, done, m, hstamp, hdone, hrun, htables⟩ | ⟨hno, hrun⟩
  · have hterm : a.term = stamp.term := (Node.term_stampOf rfl hstamp).symm
    rw [attempt_of_dropped hrun]
    rcases s.refusal_cases (J := J) a stamp.count with
      ⟨htakes, hrefusal⟩ | ⟨hrefused, answer, hrefusal, hstatus⟩
    · refine Or.inl ⟨hands, htakes, stamp, hstamp, ?_, ?_, fun other hother => ?_⟩
      · simp only [Node.carriedOut, hrefusal, Option.getD_none]
        rw [if_pos hdone]
      · simp only [handedOn, if_true]
        exact htables
      · exact buried_handedOn hterm hother (htakes other hother)
    · refine Or.inr ⟨fun hall => hrefused hall.2, ?_⟩
      simp only [Node.carriedOut, hrefusal, Option.getD_some]
      refine if_neg fun hdone => ?_
      omega
  · refine Or.inr ⟨fun hall => hno hall.1, ?_⟩
    unfold attempt
    dsimp only
    rw [orderSchema_attempt]
    dsimp only
    rcases hrun with ⟨m, hrun⟩ | ⟨e, m, hrun⟩
    · rw [hrun]
    · rw [hrun]

/-- An attempt counts as finished exactly where the leader answers that the table is gone, or that
there is none. -/
theorem isSome_finished_iff (s : Deleting) (a : Attempt) :
    (s.attempt J a).finished.isSome = true ↔
      let answer := Node.respond (Node.deleteTable J (a.seams J s.node) a.asked a.name)
        (s.node a.leader)
      answer.status = 204 ∨ answer.status = 404 := by
  unfold Node.respond Node.deleteTable attempt
  rw [run_bind]
  dsimp only
  rw [orderSchema_attempt]
  dsimp only
  rw [Node.deleteOrdered_eq, run_bind]
  rcases s.dropOrdered_attempt (J := J) a with
    ⟨-, stamp, done, m, -, -, hrun, -⟩ | ⟨-, ⟨m, hrun⟩ | ⟨e, m, hrun⟩⟩
  · rw [hrun]
    dsimp only
    split_ifs with hdone
    · exact iff_of_true rfl hdone
    · exact iff_of_false (by simp) hdone
  · have hstatus : ¬(Node.nodeIncomplete.status = 204 ∨ Node.nodeIncomplete.status = 404) := by
      decide
    rw [hrun]
    exact iff_of_false (by simp) hstatus
  · have hthrown := Node.throwsOnly_dropOrdered J _ _ _ _ _ _ _ hrun
    have hstatus : e.response.status = errorStatus e.code := rfl
    rw [hrun]
    refine iff_of_false (by simp) ?_
    rw [hstatus]
    omega

/-- An attempt leaves the table buried everywhere exactly where the leader drops something, or where
it does not get through. -/
theorem left_step_iff (s : Deleting) (e : DeletingEvent) : (s.step J e).Left J ↔ s.Drops J e := by
  cases e with
  | handed self e => exact iff_of_true (fun f hf => by cases hf) trivial
  | attempt a =>
    rcases s.attempt_cases (J := J) a with ⟨hands, htakes, stamp, hstamp,
      hfinished, hleader, hpeers⟩ | ⟨hno, hnone⟩
    · -- the leader has buried the table where it dropped it, or had it buried before
      have hdrops : s.Drops J (.attempt a) ↔
          ((s.attempt J a).node a.leader).store.tables.Buried a.name stamp := by
        rw [hleader]
        constructor
        · intro hdrops
          rcases hdrops hands htakes with hlive | hburied
          · rw [if_pos hlive]
            exact Schema.buried_remove _ _ _
          · have hgone := hburied stamp hstamp
            rw [if_neg (by simp [hgone.has])]
            exact hgone
        · intro hburied _ _
          by_cases hlive : (s.node a.leader).store.tables.has a.name = true
          · exact Or.inl hlive
          · rw [if_neg hlive] at hburied
            refine Or.inr fun other hother => ?_
            rwa [← Option.some.inj (hstamp.symm.trans hother)]
      rw [hdrops]
      constructor
      · intro hleft
        exact (hleft ⟨a, stamp⟩ hfinished a.leader List.mem_cons_self).1
      · intro hburied f hf self hself
        obtain rfl : (⟨a, stamp⟩ : Finished) = f := Option.some.inj (hfinished.symm.trans hf)
        have hall : ((s.attempt J a).node self).store.tables.Buried a.name stamp := by
          by_cases hne : self = a.leader
          · rw [hne]
            exact hburied
          · refine hpeers self (List.mem_filter.mpr ⟨?_, by simpa using hne⟩)
            exact (List.mem_cons.mp hself).resolve_left hne
        exact ⟨hall, fun heard hbefore => (Store.buried_mergedAll J hall hbefore).has⟩
    · -- it did not finish
      refine iff_of_true (fun f hf => ?_) fun hands htakes => absurd ⟨hands, htakes⟩ hno
      rw [step, hnone] at hf
      cases hf

end Deleting

/-- **A finished delete leaves a tombstone everywhere exactly if the leader drops something** in
every attempt that gets through to all the nodes. -/
theorem buried_iff (J : JsonCodec) (node : Bytes → Node) (es : List DeletingEvent) :
    Always (Deleting.step J) (Deleting.Left J) { node } es ↔
      Throughout (Deleting.step J) (Deleting.Drops J) { node } es := by
  exact always_iff_throughout (I := Deleting.Left J) (Q := fun _ => True) (fun _ h => h)
    (fun s e _ _ hdrops => (s.left_step_iff e).mpr hdrops)
    (fun s e _ _ hleft => (s.left_step_iff e).mp hleft) (fun f hf => by cases hf)
    (Throughout.always (fun _ _ _ _ => trivial) trivial (throughout_true _ es))

/-- An attempt at the delete of the table `t` that `A` orders, and `B` gets. -/
def deleteAtBoth : Attempt where
  leader := ascii "A"
  term := 2
  positive := by decide
  members := [ascii "A", ascii "B"]
  nodup := by decide
  request := { method := .delete, path := [ascii "table", ascii "t"] }
  name := ascii "t"

def createAtLeader : DeletingEvent :=
  .handed (ascii "A") (.put (.leading 1) { method := .put, path := [ascii "table", ascii "t"] }
    (ascii "t"))

/-- The leader has the table, and the other node has not heard of it. -/
theorem buried_iff_leader :
    Always (Deleting.step JsonText.codec) (Deleting.Left JsonText.codec)
      { node := fun _ => Node.fresh JsonText.codec }
      [createAtLeader, .attempt deleteAtBoth] := by
  refine (buried_iff JsonText.codec (fun _ => Node.fresh JsonText.codec)
    [createAtLeader, .attempt deleteAtBoth]).mpr ⟨trivial, fun _ _ => Or.inl ?_, trivial⟩
  decide +kernel

/-- The leader missed the create and answers that there is no such table. It holds no tombstone, and
takes the table back from a node that was away. -/
theorem not_buried_absent :
    let s := Deleting.step JsonText.codec { node := fun _ => Node.fresh JsonText.codec }
      (.attempt deleteAtBoth)
    s.finished.map (fun f => (f.attempt.leader, f.attempt.name, f.stamp)) =
        some (ascii "A", ascii "t", ⟨2, 1⟩) ∧
      (s.node (ascii "A")).store.tables.entries[ascii "t"]? = none ∧
      ((s.node (ascii "A")).store.mergedAll JsonText.codec
        [({}, (∅ : Schema).create ⟨ascii "t", []⟩ ⟨1, 1⟩)]).tables.has (ascii "t") = true ∧
      ¬s.Left JsonText.codec := by
  intro s
  have hfinished : s.finished.map (fun f => (f.attempt.leader, f.attempt.name, f.stamp)) =
      some (ascii "A", ascii "t", ⟨2, 1⟩) := by decide +kernel
  have hnone : (s.node (ascii "A")).store.tables.entries[ascii "t"]? = none := by decide +kernel
  refine ⟨hfinished, hnone, by decide +kernel, fun hleft => ?_⟩
  obtain ⟨f, hf, hattempt⟩ := Option.map_eq_some_iff.mp hfinished
  simp only [Prod.mk.injEq] at hattempt
  obtain ⟨⟨tombstone, hmem, -⟩, -⟩ := hleft f hf f.attempt.leader List.mem_cons_self
  rw [hattempt.1, hattempt.2.1, hnone] at hmem
  cases hmem

end AsyncDatabase
