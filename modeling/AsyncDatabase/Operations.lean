import AsyncDatabase.Merging
import AsyncDatabase.Router.Tables

/-!
# The operations a node carries out on its schema

What a create, a delete or a merge that a node is handed does to its schema, said once: whether the
node carries the operation out, which one it is and in which version (`Node.operation`), and that
the schema afterwards is the one before with the operation applied (`Node.tables_handedStep`).
-/

namespace AsyncDatabase

open Bytes (ascii)
open Throwing

/-- An operation on the schema, as one node carries it out. -/
inductive Operation where
  | create (table : Table) (stamp : Version)
  | remove (name : Bytes) (stamp : Version)
  | merge (named : Schema)

namespace Operation

def apply (s : Schema) : Operation → Schema
  | .create table stamp => s.create table stamp
  | .remove name stamp => s.remove name stamp
  | .merge named => (s.merge named).1

/-- The entry an operation hands over for a name. -/
def entryOf (name : Bytes) : Operation → Option Entry
  | .create table stamp => if table.name = name then some ⟨stamp, some table⟩ else none
  | .remove other stamp => if other = name then some ⟨stamp, none⟩ else none
  | .merge named => named.entries[name]?

/-- A create and a delete put their own entry, whatever is held; a merge keeps the newer. -/
theorem getElem?_apply (s : Schema) (op : Operation) (name : Bytes) :
    (op.apply s).entries[name]? =
      match op with
      | .merge named => Newest.join Entry.rank named.entries[name]? s.entries[name]?
      | op => (op.entryOf name).or s.entries[name]? := by
  cases op with
  | create table stamp =>
    change (s.create table stamp).entries[name]? =
      (if table.name = name then some (⟨stamp, some table⟩ : Entry) else none).or s.entries[name]?
    rw [Schema.create, Schema.getElem?_put]
    split_ifs <;> rfl
  | remove other stamp =>
    change (s.remove other stamp).entries[name]? =
      (if other = name then some (⟨stamp, none⟩ : Entry) else none).or s.entries[name]?
    rw [Schema.remove, Schema.getElem?_put]
    split_ifs <;> rfl
  | merge named => exact Schema.getElem?_merge s named name

end Operation

/-- What a node is handed that is about its schema. -/
inductive HandedEvent where
  | put (w : Seams) (request : Request) (name : Bytes)
  | delete (w : Seams) (request : Request) (name : Bytes)
  /-- A pass takes the schema another node answered with. -/
  | merge (db : Database) (named : Schema)

namespace Node

variable (J : JsonCodec)

def handedStep (n : Node) : HandedEvent → Node
  | .put w request name => after (createTable J w request name n)
  | .delete w request name => after (deleteTable J w request name n)
  | .merge db named => after (onStore (Store.mergeSchema J db named) n)

/-- The node takes an operation of a request on: it was ordered in a term that is let through, or
nobody has ordered it and this node leads the tables. -/
def Orders (w : Seams) (request : Request) (n : Node) : Prop :=
  if request.term ≠ 0 then n.accepted tablePartition ≤ request.term
  else (w.leader tableKey).known = true ∧ (w.leader tableKey).isLocal = true

instance (w : Seams) (request : Request) (n : Node) : Decidable (n.Orders w request) :=
  inferInstanceAs (Decidable (if request.term ≠ 0 then n.accepted tablePartition ≤ request.term
    else (w.leader tableKey).known = true ∧ (w.leader tableKey).isLocal = true))

/-- The version an operation is carried out in: the one it was ordered in, or the next of this
node's own, where it has one. -/
def stampOf (w : Seams) (request : Request) (n : Node) : Option Version :=
  if request.term ≠ 0 then some ⟨request.term, request.count⟩
  else match Store.nextCount w.db n.store with
    | .ok count _ => some ⟨(w.leader tableKey).term, count⟩
    | .error .. => none

/-- The operation a node carries out of what it is handed, where it carries one out. -/
def operation (n : Node) : HandedEvent → Option Operation
  | .put w request name =>
    match parseBody J request.body with
    | none => none
    | some body =>
      match Table.parseTable name body fun other => n.store.tables.tables.any (·.name = other) with
      | .error _ => none
      | .ok table =>
        if n.Orders w request ∧ n.store.tables.has name = false ∧
            Store.AltersFamily w.db n.store ⟨name, true⟩ then
          (n.stampOf w request).map (.create table)
        else none
  | .delete w request name =>
    if n.Orders w request ∧ (n.store.tables.has name = true ∨ request.term ≠ 0) ∧
        Store.AltersFamily w.db n.store ⟨name, false⟩ then
      (n.stampOf w request).map (.remove name)
    else none
  | .merge _ named => some (.merge named)

/-! ### Ordering and stamping -/

variable {J} {w : Seams} {request : Request} {n : Node}

/-- A node that leads the tables takes on what nobody has ordered. -/
theorem orderSchema_led (hterm : request.term = 0) (hknown : (w.leader tableKey).known = true)
    (hlocal : (w.leader tableKey).isLocal = true) :
    orderSchema w request n =
      .ok (.ok { peers := w.peers, term := (w.leader tableKey).term }) (n.led w tableKey) := by
  unfold orderSchema
  rw [if_neg (not_not.mpr hterm), run_bind, leader_eq]
  simp [hknown, hlocal]

/-- What `order_schema` does where the node takes the operation on and where it does not. -/
theorem orderSchema_orders (w : Seams) (request : Request) (n : Node) :
    (n.Orders w request ∧ ∃ order n', orderSchema w request n = .ok (.ok order) n' ∧
        n'.store = n.store ∧ (order.carried = true ↔ request.term ≠ 0) ∧
        (request.term = 0 → order.term = (w.leader tableKey).term ∧ order.peers = w.peers)) ∨
      (¬n.Orders w request ∧ ∃ answer n', orderSchema w request n = .ok (.error answer) n' ∧
        n'.store = n.store) := by
  unfold Orders
  rcases orderSchema_cases w request n with
    ⟨hterm, hfence, h⟩ | ⟨hterm, hknown, hlocal, h⟩ | ⟨hrefused, answer, n', h, hquiet⟩
  · rw [if_pos hterm]
    exact Or.inl ⟨hfence, _, _, h, rfl, by simp [hterm], fun hno => absurd hno hterm⟩
  · rw [if_neg (not_not.mpr hterm)]
    exact Or.inl ⟨⟨hknown, hlocal⟩, _, _, h, (quiet_led w n tableKey).store, by simp [hterm],
      fun _ => ⟨rfl, rfl⟩⟩
  · refine Or.inr ⟨?_, answer, n', h, hquiet.store⟩
    by_cases hterm : request.term = 0
    · rw [if_neg (not_not.mpr hterm)]
      rintro ⟨hknown, hlocal⟩
      rw [orderSchema_led hterm hknown hlocal] at h
      cases h
    · rw [if_pos hterm]
      exact not_le.mpr (hrefused hterm)

theorem schemaStamp_stampOf {order : Ordering} {n' : Node} (hstore : n'.store = n.store)
    (hcarried : order.carried = true ↔ request.term ≠ 0)
    (hled : request.term = 0 → order.term = (w.leader tableKey).term) :
    (∃ stamp s, n.stampOf w request = some stamp ∧ s.SameTables n.store ∧
        schemaStamp w request order n' = .ok stamp { n' with store := s }) ∨
      ∃ e s, n.stampOf w request = none ∧ s.SameTables n.store ∧
        schemaStamp w request order n' = .error e { n' with store := s } := by
  unfold stampOf schemaStamp
  by_cases hterm : request.term = 0
  · have horder : ¬order.carried = true := fun h => hcarried.mp h hterm
    have hsame := Store.sameTables_nextCount w.db n.store
    rw [if_neg (not_not.mpr hterm), if_neg horder, run_bind, onStore, hstore]
    cases hcount : Store.nextCount w.db n.store with
    | ok count s =>
      rw [hcount] at hsame
      rw [← hled hterm]
      exact Or.inl ⟨_, s, rfl, hsame, rfl⟩
    | error e s =>
      rw [hcount] at hsame
      exact Or.inr ⟨e, s, rfl, hsame, rfl⟩
  · rw [if_pos hterm, if_pos (hcarried.mpr hterm)]
    refine Or.inl ⟨_, n.store, rfl, Store.SameTables.refl _, ?_⟩
    rw [← hstore]
    rfl

/-! ### What a create and a delete leave in the schema -/

theorem altersFamily_congr {db : Database} {s t : Store} (h : s.SameTables t)
    (change : Schema.Change) :
    Store.AltersFamily db s change ↔ Store.AltersFamily db t change := by
  unfold Store.AltersFamily
  rw [h.families]

end Node

namespace Store

variable (J : JsonCodec) (db : Database)

/-- What creating a table leaves in memory: the table, unless its family could not be opened. -/
theorem tables_createTable (table : Table) (stamp : Version) (s : Store) :
    (after (createTable J db table stamp s)).tables =
      if AltersFamily db s ⟨table.name, true⟩ then s.tables.create table stamp else s.tables := by
  rcases createTable_cases J db table stamp s with ⟨halters, -, h⟩ | ⟨hfails, e, h⟩ |
    ⟨halters, -, e, h⟩
  · rw [h, if_pos halters]
    rfl
  · rw [h, if_neg hfails]
    rfl
  · rw [h, if_pos halters]
    rfl

/-- What deleting a table leaves in memory: its tombstone, unless its family could not be
dropped. -/
theorem tables_deleteTable (name : Bytes) (stamp : Version) (s : Store) :
    (after (deleteTable J db name stamp s)).tables =
      if AltersFamily db s ⟨name, false⟩ then s.tables.remove name stamp else s.tables := by
  rcases deleteTable_cases J db name stamp s with ⟨halters, -, h⟩ | ⟨hfails, e, h⟩ |
    ⟨halters, -, e, h⟩
  · rw [h, if_pos halters]
    rfl
  · rw [h, if_neg hfails]
    rfl
  · rw [h, if_pos halters]
    rfl

/-- A merge leaves the schema merged in memory, whatever the database answers. -/
theorem tables_mergeSchema (named : Schema) (s : Store) :
    (after (mergeSchema J db named s)).tables = (s.tables.merge named).1 := by
  rcases mergeSchema_cases J db named s with ⟨-, h⟩ | ⟨-, e, families, h⟩ | ⟨-, e, h⟩
  · rw [h]
    simp
  · rw [h]
    rfl
  · rw [h]
    simp

end Store

namespace Node

variable {J : JsonCodec} {w : Seams} {request : Request} {n : Node}

/-- What a step leaves in the schema where it carries an operation out on the store and answers. -/
theorem store_carryOut_pure (partition : Partition) (term : ℤ) (x : Action Unit) (answer : Response)
    (n : Node) :
    (after ((carryOut partition term x >>= fun _ => pure answer) n)).store = after (x n.store) := by
  rw [run_bind]
  rcases carryOut_cases partition term x n with ⟨s, hx, h⟩ | ⟨e, s, hx, h⟩ <;> rw [h, hx] <;> rfl

theorem tables_createOrdered {order : Ordering} {n' : Node} {name : Bytes} {body : Json}
    (hstore : n'.store = n.store) (hcarried : order.carried = true ↔ request.term ≠ 0)
    (hled : request.term = 0 → order.term = (w.leader tableKey).term) :
    (after (createOrdered J w request name body order n')).store.tables =
      match Table.parseTable name body fun other => n.store.tables.tables.any (·.name = other) with
      | .error _ => n.store.tables
      | .ok table =>
        if n.store.tables.has name = false ∧ Store.AltersFamily w.db n.store ⟨name, true⟩ then
          ((n.stampOf w request).map (n.store.tables.create table)).getD n.store.tables
        else n.store.tables := by
  unfold createOrdered
  rw [run_bind_get, hstore]
  cases hparse : Table.parseTable name body
      fun other => n.store.tables.tables.any (·.name = other) with
  | error refused => exact congrArg Store.tables hstore
  | ok table =>
    obtain ⟨rfl, -, -⟩ := Table.parseTable_ok hparse
    dsimp only
    rcases schemaStamp_stampOf hstore hcarried hled with ⟨stamp, s, hstamp, hsame, hrun⟩ |
      ⟨e, s, hstamp, hsame, hrun⟩
    · rw [run_bind, hrun, hstamp]
      dsimp only
      cases hread : n.store.tables.read table.name with
      | ok existing =>
        rw [if_neg (by simp [Schema.has_of_read hread])]
        dsimp only
        split_ifs <;> exact hsame.tables
      | error missing =>
        simp only [Schema.has_eq_false_of_read hread, true_and]
        rw [store_carryOut_pure, Store.tables_createTable]
        simp only [altersFamily_congr hsame, hsame.tables, Option.map_some, Option.getD_some]
    · rw [run_bind, hrun, hstamp]
      simpa using hsame.tables

theorem tables_deleteOrdered {order : Ordering} {n' : Node} {name : Bytes}
    (hstore : n'.store = n.store) (hcarried : order.carried = true ↔ request.term ≠ 0)
    (hled : request.term = 0 → order.term = (w.leader tableKey).term) :
    (after (deleteOrdered J w request name order n')).store.tables =
      if (n.store.tables.has name = true ∨ request.term ≠ 0) ∧
          Store.AltersFamily w.db n.store ⟨name, false⟩ then
        ((n.stampOf w request).map (n.store.tables.remove name)).getD n.store.tables
      else n.store.tables := by
  unfold deleteOrdered
  rcases schemaStamp_stampOf hstore hcarried hled with ⟨stamp, s, hstamp, hsame, hrun⟩ |
    ⟨e, s, hstamp, hsame, hrun⟩
  · have hdone : ∀ answer : Response, (after ((carryOut tablePartition stamp.term
        (Store.deleteTable J w.db name stamp) >>= fun _ => pure answer)
          { n' with store := s })).store.tables =
        if Store.AltersFamily w.db n.store ⟨name, false⟩ then n.store.tables.remove name stamp
        else n.store.tables := by
      intro answer
      rw [store_carryOut_pure, Store.tables_deleteTable]
      simp only [altersFamily_congr hsame, hsame.tables]
    rw [run_bind, hrun, hstamp]
    simp only [run_bind_get, hsame.tables]
    cases hhas : n.store.tables.has name with
    | true =>
      simp only [Bool.not_true, Bool.false_eq_true, if_false, true_or, true_and]
      exact hdone _
    | false =>
      by_cases horder : order.carried = true
      · simp only [Bool.not_false, if_true, horder, hcarried.mp horder, not_false_eq_true, or_true,
          ne_eq, true_and]
        exact hdone _
      · have hterm : ¬request.term ≠ 0 := fun h => horder (hcarried.mpr h)
        simp only [Bool.not_false, if_true, horder, Bool.false_eq_true, hterm, or_self, false_and,
          if_false]
        split_ifs <;> exact hsame.tables
  · rw [run_bind, hrun, hstamp]
    simpa using hsame.tables

/-- **What a node that is handed something leaves in its schema**: the one it had, with the
operation applied that it carries out, where it carries one out. -/
theorem tables_handedStep (n : Node) (e : HandedEvent) :
    (n.handedStep J e).store.tables =
      (n.operation J e).elim n.store.tables fun op => op.apply n.store.tables := by
  cases e with
  | put w request name =>
    simp only [handedStep, createTable, operation]
    cases parseBody J request.body with
    | none => rfl
    | some body =>
      dsimp only
      rw [run_bind]
      rcases orderSchema_orders w request n with ⟨horders, order, n', h, hstore, hcarried, hled⟩ |
        ⟨hno, answer, n', h, hstore⟩
      · rw [h]
        dsimp only
        rw [tables_createOrdered hstore hcarried fun hterm => (hled hterm).1]
        cases Table.parseTable name body
            fun other => n.store.tables.tables.any (·.name = other) with
        | error refused => rfl
        | ok table =>
          simp only [horders, true_and]
          split_ifs
          · cases n.stampOf w request <;> rfl
          · rfl
      · rw [h]
        cases Table.parseTable name body
            fun other => n.store.tables.tables.any (·.name = other) with
        | error refused => exact congrArg Store.tables hstore
        | ok table =>
          dsimp only
          rw [if_neg fun h => hno h.1]
          exact congrArg Store.tables hstore
  | delete w request name =>
    simp only [handedStep, deleteTable, operation]
    rw [run_bind]
    rcases orderSchema_orders w request n with ⟨horders, order, n', h, hstore, hcarried, hled⟩ |
      ⟨hno, answer, n', h, hstore⟩
    · rw [h]
      dsimp only
      rw [tables_deleteOrdered hstore hcarried fun hterm => (hled hterm).1]
      simp only [horders, true_and]
      split_ifs
      · cases n.stampOf w request <;> rfl
      · rfl
    · rw [h, if_neg fun h => hno h.1]
      exact congrArg Store.tables hstore
  | merge db named =>
    simp only [handedStep, operation, onStore]
    have htables := Store.tables_mergeSchema J db named n.store
    cases h : Store.mergeSchema J db named n.store with
    | ok count s =>
      rw [h] at htables
      exact htables
    | error failure s =>
      rw [h] at htables
      exact htables

/-- What a request creates is a name that is not live, and depends on names that are. -/
theorem operation_put {name : Bytes} {op : Operation}
    (h : n.operation J (.put w request name) = some op) :
    ∃ table stamp, op = .create table stamp ∧ n.store.tables.has table.name = false ∧
      ∀ dependency ∈ table.dependencies, n.store.tables.has dependency = true := by
  simp only [operation] at h
  split at h
  · cases h
  · split at h
    · cases h
    · rename_i table hparse
      split_ifs at h with hnew
      obtain ⟨stamp, -, rfl⟩ := Option.map_eq_some_iff.mp h
      obtain ⟨rfl, -, hdeps⟩ := Table.parseTable_ok hparse
      refine ⟨table, stamp, rfl, hnew.2.1, fun dependency hd => ?_⟩
      obtain ⟨other, hother, hnamed⟩ := List.any_eq_true.mp (hdeps dependency hd)
      exact Schema.has_of_mem_tables hother (of_decide_eq_true hnamed)

theorem operation_delete {name : Bytes} {op : Operation}
    (h : n.operation J (.delete w request name) = some op) : ∃ stamp, op = .remove name stamp := by
  simp only [operation] at h
  split_ifs at h
  obtain ⟨stamp, -, rfl⟩ := Option.map_eq_some_iff.mp h
  exact ⟨stamp, rfl⟩

end Node

end AsyncDatabase
