import AsyncDatabase.Library.Run
import AsyncDatabase.Operations

/-!
# The dependencies of tables

The edges a create records, from a table to the tables it is derived from. A create checks every
edge against the tables that are live then, so the graph it leaves is well formed where the one
before was (`Schema.WellFormed.create`): nothing points at the name that is new. A delete checks
nothing, and leaves a well formed graph exactly where no live table depends on the one that goes
(`well_formed_iff`).
-/

namespace AsyncDatabase

open Bytes (ascii)
open Machine Throwing

namespace Schema

/-- A live table names another as a dependency. -/
def DependsOn (s : Schema) (name dependency : Bytes) : Prop :=
  ∃ table, s.declared? name = some table ∧ dependency ∈ table.dependencies

/-- What a live table depends on is live, and no table depends on itself, however far around. -/
structure WellFormed (s : Schema) : Prop where
  live : ∀ {name dependency}, s.DependsOn name dependency → s.has dependency = true
  acyclic : ∀ name, ¬Relation.TransGen s.DependsOn name name

theorem declared?_create (s : Schema) (table : Table) (stamp : Version) (name : Bytes) :
    (s.create table stamp).declared? name =
      if table.name = name then some table else s.declared? name := by
  rw [declared?, readEntry, create, getElem?_put]
  split_ifs <;> rfl

theorem declared?_remove (s : Schema) (name : Bytes) (stamp : Version) (other : Bytes) :
    (s.remove name stamp).declared? other = if name = other then none else s.declared? other := by
  rw [declared?, readEntry, remove, getElem?_put]
  split_ifs <;> rfl

theorem wellFormed_empty : (∅ : Schema).WellFormed := by
  have hnone : ∀ name dependency, ¬(∅ : Schema).DependsOn name dependency := by
    rintro name dependency ⟨table, htable, -⟩
    cases htable
  refine ⟨fun h => absurd h (hnone _ _), fun name hcycle => ?_⟩
  obtain ⟨other, hfirst, -⟩ := Relation.TransGen.head'_iff.mp hcycle
  exact hnone _ _ hfirst

/-- **A create keeps the graph well formed.** The table's edges point at live tables, of which it is
none yet, so no way around leads through it. -/
theorem WellFormed.create {s : Schema} (h : s.WellFormed) {table : Table} {stamp : Version}
    (hnew : s.has table.name = false)
    (hdeps : ∀ dependency ∈ table.dependencies, s.has dependency = true) :
    (s.create table stamp).WellFormed := by
  have hedge : ∀ {name dependency}, (s.create table stamp).DependsOn name dependency →
      s.has dependency = true ∧ (name ≠ table.name → s.DependsOn name dependency) := by
    rintro name dependency ⟨declared, hdeclared, hmem⟩
    rw [declared?_create] at hdeclared
    split_ifs at hdeclared with hname
    · obtain rfl := Option.some.inj hdeclared
      exact ⟨hdeps dependency hmem, fun hne => absurd hname.symm hne⟩
    · exact ⟨h.live ⟨declared, hdeclared, hmem⟩, fun _ => ⟨declared, hdeclared, hmem⟩⟩
  -- what anything points at is live, and so it is not the name that is new
  have htarget : ∀ {name dependency}, (s.create table stamp).DependsOn name dependency →
      dependency ≠ table.name := by
    rintro name dependency hdepends rfl
    rw [(hedge hdepends).1] at hnew
    cases hnew
  have hpath : ∀ {name other}, Relation.TransGen (s.create table stamp).DependsOn name other →
      name ≠ table.name → Relation.TransGen s.DependsOn name other := by
    intro name other hway hne
    induction hway with
    | single hlast => exact .single ((hedge hlast).2 hne)
    | tail hway hlast ih =>
      obtain ⟨_, -, hinto⟩ := Relation.TransGen.tail'_iff.mp hway
      exact ih.tail ((hedge hlast).2 (htarget hinto))
  refine ⟨fun hdepends => ?_, fun name hcycle => ?_⟩
  · have hlive := (hedge hdepends).1
    rw [has] at hlive ⊢
    rw [declared?_create]
    split_ifs
    · rfl
    · exact hlive
  · obtain ⟨_, -, hinto⟩ := Relation.TransGen.tail'_iff.mp hcycle
    exact h.acyclic name (hpath hcycle (htarget hinto))

/-- **A delete keeps the graph well formed exactly where nothing depends on the table.** -/
theorem WellFormed.remove_iff {s : Schema} (h : s.WellFormed) {name : Bytes} {stamp : Version} :
    (s.remove name stamp).WellFormed ↔ ∀ other, ¬s.DependsOn other name := by
  have hedge : ∀ {other dependency}, (s.remove name stamp).DependsOn other dependency →
      s.DependsOn other dependency := by
    rintro other dependency ⟨table, htable, hmem⟩
    rw [declared?_remove] at htable
    split_ifs at htable
    exact ⟨table, htable, hmem⟩
  constructor
  · rintro hafter other hdepends
    have hne : name ≠ other := by
      rintro rfl
      exact h.acyclic name (.single hdepends)
    obtain ⟨table, htable, hmem⟩ := hdepends
    have hlive := hafter.live ⟨table, by rw [declared?_remove, if_neg hne]; exact htable, hmem⟩
    rw [has, declared?_remove, if_pos rfl] at hlive
    cases hlive
  · intro hnone
    have hfewer : (s.remove name stamp).DependsOn ≤ s.DependsOn := fun _ _ hdepends =>
      hedge hdepends
    refine ⟨fun {other dependency} hdepends => ?_, fun other hcycle =>
      h.acyclic other (Relation.TransGen.mono hfewer other other hcycle)⟩
    have hne : name ≠ dependency := by
      rintro rfl
      exact hnone other (hedge hdepends)
    have hlive := h.live (hedge hdepends)
    rw [has] at hlive ⊢
    rwa [declared?_remove, if_neg hne]

/-- A live table depends on a name. -/
def isDependedOn (s : Schema) (name : Bytes) : Bool :=
  s.tables.any fun table => decide (name ∈ table.dependencies)

theorem isDependedOn_iff {s : Schema} {name : Bytes} :
    s.isDependedOn name = true ↔ ∃ other, s.DependsOn other name := by
  simp only [isDependedOn, List.any_eq_true, decide_eq_true_eq]
  constructor
  · rintro ⟨table, htable, hmem⟩
    exact ⟨table.name, table, mem_tables_iff.mp htable, hmem⟩
  · rintro ⟨other, table, htable, hmem⟩
    obtain ⟨entry, hentry, hdeclared⟩ := Option.bind_eq_some_iff.mp htable
    refine ⟨table, mem_tables_iff.mpr ?_, hmem⟩
    rw [s.named hentry hdeclared]
    exact htable

end Schema

/-- The operation takes no table away that a live one depends on. -/
def Operation.Spares (s : Schema) : Operation → Prop
  | .remove name _ => s.isDependedOn name = false
  | .create .. | .merge _ => True

instance (s : Schema) : (op : Operation) → Decidable (op.Spares s)
  | .remove name _ => inferInstanceAs (Decidable (s.isDependedOn name = false))
  | .create .. | .merge _ => inferInstanceAs (Decidable True)

/-- A request to create or to delete a table. -/
inductive TableEvent where
  | put (w : Seams) (request : Request) (name : Bytes)
  | delete (w : Seams) (request : Request) (name : Bytes)

namespace TableEvent

def handed : TableEvent → HandedEvent
  | put w request name => .put w request name
  | delete w request name => .delete w request name

end TableEvent

namespace Node

variable (J : JsonCodec)

def tableStep (n : Node) (e : TableEvent) : Node := n.handedStep J e.handed

/-- No live table depends on the one the node deletes, where it deletes one. -/
def Spares (n : Node) (e : TableEvent) : Prop :=
  ∀ op ∈ n.operation J e.handed, op.Spares n.store.tables

instance (n : Node) (e : TableEvent) : Decidable (n.Spares J e) :=
  inferInstanceAs (Decidable (∀ op ∈ n.operation J e.handed, op.Spares n.store.tables))

variable {J}

/-- A request keeps the graph well formed exactly where it spares what is depended on. -/
theorem wellFormed_tableStep {n : Node} (h : n.store.tables.WellFormed) (e : TableEvent) :
    (n.tableStep J e).store.tables.WellFormed ↔ n.Spares J e := by
  rw [tableStep, tables_handedStep, Spares]
  cases hop : n.operation J e.handed with
  | none => exact iff_of_true h (by simp)
  | some op =>
    simp only [Option.mem_def, Option.some.injEq, forall_eq', Option.elim_some]
    cases e with
    | put w request name =>
      obtain ⟨table, stamp, rfl, hnew, hdeps⟩ := operation_put hop
      exact iff_of_true (h.create hnew hdeps) trivial
    | delete w request name =>
      obtain ⟨stamp, rfl⟩ := operation_delete hop
      change (n.store.tables.remove name stamp).WellFormed ↔
        n.store.tables.isDependedOn name = false
      rw [h.remove_iff, ← Bool.not_eq_true, Schema.isDependedOn_iff, not_exists]

theorem tables_fresh (J : JsonCodec) : (fresh J).store.tables = ∅ := by
  obtain ⟨families, hrun, -⟩ := Store.openStore_eq J Disk.fresh
  have hstore : (fresh J).store = after (Store.openStore J {} Disk.fresh) := rfl
  rw [hstore, hrun]
  rfl

end Node

/-- **The graph of dependencies is well formed in every state that creates and deletes lead to
exactly if no delete is carried out of a table that a live one depends on.** -/
theorem well_formed_iff (J : JsonCodec) (es : List TableEvent) :
    Always (Node.tableStep J) (fun n => n.store.tables.WellFormed) (Node.fresh J) es ↔
      Throughout (Node.tableStep J) (Node.Spares J) (Node.fresh J) es := by
  have hstart : (Node.fresh J).store.tables.WellFormed := by
    rw [Node.tables_fresh]
    exact Schema.wellFormed_empty
  exact always_iff_throughout (Q := fun _ => True) (fun _ h => h)
    (fun n e h _ hspares => (Node.wellFormed_tableStep h e).mpr hspares)
    (fun n e h _ hafter => (Node.wellFormed_tableStep h e).mp hafter) hstart
    (Throughout.always (fun _ _ _ _ => trivial) trivial (throughout_true _ es))

/-- A client's requests to the node that leads the tables. -/
def putAlone (name : Bytes) : TableEvent :=
  .put (.leading 1) { method := .put, path := [ascii "table", name] } name

def putDerived (name dependency : Bytes) : TableEvent :=
  .put (.leading 1)
    { method := .put, path := [ascii "table", name],
      body := ascii "\x7b\"dependencies\":[\"" ++ dependency ++ ascii "\"]\x7d" } name

def deleteNamed (name : Bytes) : TableEvent :=
  .delete (.leading 1) { method := .delete, path := [ascii "table", name] } name

/-- A table is deleted after the one that depended on it. -/
theorem well_formed_iff_inTurn :
    Always (Node.tableStep JsonText.codec) (fun n => n.store.tables.WellFormed)
      (Node.fresh JsonText.codec) [putAlone (ascii "a"), putDerived (ascii "b") (ascii "a"),
        deleteNamed (ascii "b"), deleteNamed (ascii "a")] :=
  (well_formed_iff JsonText.codec [putAlone (ascii "a"), putDerived (ascii "b") (ascii "a"),
    deleteNamed (ascii "b"), deleteNamed (ascii "a")]).mpr (by decide +kernel)

/-- A table is deleted while another depends on it, and once it is created again, to depend on that
one, each depends on the other. -/
theorem not_well_formed_deleted :
    let made : List TableEvent := [putAlone (ascii "a"),
      putDerived (ascii "b") (ascii "a"), deleteNamed (ascii "a")]
    let gone := run (Node.tableStep JsonText.codec) (Node.fresh JsonText.codec) made
    let again := gone.tableStep JsonText.codec (putDerived (ascii "a") (ascii "b"))
    ¬gone.store.tables.WellFormed ∧ again.store.tables.DependsOn (ascii "a") (ascii "b") ∧
      again.store.tables.DependsOn (ascii "b") (ascii "a") := by
  intro made gone again
  have hlive : gone.store.tables.declared? (ascii "b") = some ⟨ascii "b", [ascii "a"]⟩ := by
    decide +kernel
  have hgone : gone.store.tables.has (ascii "a") = false := by decide +kernel
  have hback : again.store.tables.declared? (ascii "a") = some ⟨ascii "a", [ascii "b"]⟩ := by
    decide +kernel
  have hstill : again.store.tables.declared? (ascii "b") = some ⟨ascii "b", [ascii "a"]⟩ := by
    decide +kernel
  refine ⟨fun h => ?_, ⟨_, hback, List.mem_singleton.mpr rfl⟩,
    ⟨_, hstill, List.mem_singleton.mpr rfl⟩⟩
  have hdependency := h.live ⟨_, hlive, List.mem_singleton.mpr rfl⟩
  rw [hgone] at hdependency
  cases hdependency

end AsyncDatabase
