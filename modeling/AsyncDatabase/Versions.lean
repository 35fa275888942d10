import AsyncDatabase.Library.Run
import AsyncDatabase.Operations

/-!
# The versions of the entries of a schema

A node that is handed creates and deletes of tables, carried to it or its own, and schemas to merge,
in any order, with what it took on written down beside it (`Handed`). A merge keeps the newer entry
of a name. A create and a delete do not look at the entry they replace, and a create of a table that
is live leaves the entry as it is, so an entry has the newest version of what was taken on exactly
where each operation arrives in its order (`newest_entries`).
-/

namespace AsyncDatabase

open Bytes (ascii)
open Machine Newest

namespace Operation

/-- Nothing newer stands where the operation puts an entry of its own. -/
def Follows (s : Schema) : Operation → Prop
  | .create table stamp => ∀ held ∈ s.entries[table.name]?, held.stamp.isNewer stamp = false
  | .remove name stamp => ∀ held ∈ s.entries[name]?, held.stamp.isNewer stamp = false
  | .merge _ => True

/-- Nothing older stands under the name of a table that is created again. -/
def Precedes (s : Schema) : Operation → Prop
  | .create table stamp => ∀ held ∈ s.entries[table.name]?, stamp.isNewer held.stamp = false
  | .remove .. | .merge _ => True

instance (s : Schema) : (op : Operation) → Decidable (op.Follows s)
  | .create table stamp =>
    inferInstanceAs (Decidable (∀ held ∈ s.entries[table.name]?, held.stamp.isNewer stamp = false))
  | .remove name stamp =>
    inferInstanceAs (Decidable (∀ held ∈ s.entries[name]?, held.stamp.isNewer stamp = false))
  | .merge _ => inferInstanceAs (Decidable True)

instance (s : Schema) : (op : Operation) → Decidable (op.Precedes s)
  | .create table stamp =>
    inferInstanceAs (Decidable (∀ held ∈ s.entries[table.name]?, stamp.isNewer held.stamp = false))
  | .remove .. | .merge _ => inferInstanceAs (Decidable True)

theorem isNewer_eq_false {a b : Entry} : a.stamp.isNewer b.stamp = false ↔ a.rank ≤ b.rank := by
  rw [← Bool.not_eq_true, Version.isNewer_iff_rank_lt, not_lt]
  rfl

/-- An operation that follows what is held keeps the newer of its entry and the one held. -/
theorem keeps_apply {s : Schema} {op : Operation} (h : op.Follows s) (name : Bytes) :
    Keeps Entry.rank (op.entryOf name) s.entries[name]? (op.apply s).entries[name]? := by
  -- what puts an entry of its own keeps it, and nothing held is newer
  have hputs : ∀ (other : Bytes) (entry : Entry),
      (∀ held ∈ s.entries[other]?, held.rank ≤ entry.rank) →
      Keeps Entry.rank (if other = name then some entry else none) s.entries[name]?
        ((if other = name then some entry else none).or s.entries[name]?) := by
    intro other entry hle
    split_ifs with hname
    · subst hname
      refine ⟨Or.inl rfl, fun x hx => ⟨entry, rfl, ?_⟩⟩
      rcases hx with hx | hx
      · rw [Option.some.inj hx]
      · exact hle x hx
    · exact ⟨Or.inr rfl, fun x hx => ⟨x, hx.resolve_left (by simp), le_refl _⟩⟩
  rw [getElem?_apply]
  cases op with
  | create table stamp =>
    exact hputs table.name ⟨stamp, some table⟩ fun held hheld => isNewer_eq_false.mp (h held hheld)
  | remove other stamp =>
    exact hputs other ⟨stamp, none⟩ fun held hheld => isNewer_eq_false.mp (h held hheld)
  | merge named => exact keeps_join _ _

/-- Where what is left is the newest of a set that what was held belongs to, the operation
follows. -/
theorem follows_of_newest {s : Schema} {op : Operation} {S : Bytes → Set Entry}
    (hheld : ∀ name held, s.entries[name]? = some held → held ∈ S name)
    (h : ∀ name, IsNewest Entry.rank (S name) (op.apply s).entries[name]?) : op.Follows s := by
  have hputs : ∀ (name : Bytes) (entry : Entry), (op.apply s).entries[name]? = some entry →
      ∀ held ∈ s.entries[name]?, held.stamp.isNewer entry.stamp = false := by
    intro name entry hentry held hmem
    have hnewest := h name
    rw [hentry] at hnewest
    exact isNewer_eq_false.mpr (hnewest.2 held (hheld name held hmem))
  cases op with
  | create table stamp =>
    refine hputs table.name ⟨stamp, some table⟩ ?_
    rw [getElem?_apply]
    simp [entryOf]
  | remove name stamp =>
    refine hputs name ⟨stamp, none⟩ ?_
    rw [getElem?_apply]
    simp [entryOf]
  | merge named => trivial

end Operation

namespace Node

variable (J : JsonCodec)

/-- A create of a table that is live already, with the same options: it is answered as done, and
changes nothing here. -/
def repeated (n : Node) : HandedEvent → Option Operation
  | .put w request name =>
    match parseBody J request.body with
    | none => none
    | some body =>
      match Table.parseTable name body fun other => n.store.tables.tables.any (·.name = other) with
      | .error _ => none
      | .ok table =>
        if n.Orders w request ∧ n.store.tables.declared? name = some table then
          (n.stampOf w request).map (.create table)
        else none
  | .delete .. | .merge .. => none

/-- What the node takes on arrives in its order: nothing newer stands where an entry is put, and
nothing older where a table is created again. -/
def InOrder (n : Node) (e : HandedEvent) : Prop :=
  (∀ op ∈ n.operation J e, op.Follows n.store.tables) ∧
    ∀ op ∈ n.repeated J e, op.Precedes n.store.tables

instance (n : Node) (e : HandedEvent) : Decidable (n.InOrder J e) :=
  inferInstanceAs (Decidable ((∀ op ∈ n.operation J e, op.Follows n.store.tables) ∧
    ∀ op ∈ n.repeated J e, op.Precedes n.store.tables))

variable {J}

/-- What is created again is live. -/
theorem repeated_eq_some {n : Node} {e : HandedEvent} {op : Operation}
    (h : n.repeated J e = some op) :
    n.operation J e = none ∧ ∃ table stamp, op = .create table stamp ∧
      n.store.tables.declared? table.name = some table := by
  cases e with
  | put w request name =>
    simp only [repeated] at h
    cases hbody : parseBody J request.body with
    | none =>
      rw [hbody] at h
      cases h
    | some body =>
      rw [hbody] at h
      dsimp only at h
      cases hparse : Table.parseTable name body
          fun other => n.store.tables.tables.any (·.name = other) with
      | error refused =>
        rw [hparse] at h
        cases h
      | ok table =>
        rw [hparse] at h
        dsimp only at h
        split_ifs at h with hlive
        obtain ⟨stamp, -, rfl⟩ := Option.map_eq_some_iff.mp h
        obtain ⟨hname, -, -⟩ := Table.parseTable_ok hparse
        have hhas : n.store.tables.has name = true := by simp [Schema.has, hlive.2]
        refine ⟨?_, table, stamp, rfl, hname ▸ hlive.2⟩
        simp only [operation, hbody, hparse, hhas]
        exact if_neg fun h => absurd h.2.1 (by simp)
  | delete w request name => cases h
  | merge db named => cases h

end Node

/-- A node with the operations it took on, the last one first. -/
structure Handed where
  node : Node
  taken : List Operation

namespace Handed

variable (J : JsonCodec)

/-- A node that begins with its schema as it is. -/
def start (n : Node) : Handed := ⟨n, [.merge n.store.tables]⟩

def step (h : Handed) (e : HandedEvent) : Handed where
  node := h.node.handedStep J e
  taken := (h.node.operation J e).toList ++ (h.node.repeated J e).toList ++ h.taken

/-- The entries of a name that were handed over with what the node took on. -/
def handedOver (h : Handed) (name : Bytes) : Set Entry :=
  {entry | ∃ op ∈ h.taken, op.entryOf name = some entry}

/-- The entry of every name is the newest of those handed over. -/
def HoldsNewest (h : Handed) : Prop :=
  ∀ name, IsNewest Entry.rank (h.handedOver name) h.node.store.tables.entries[name]?

theorem holdsNewest_start (n : Node) : (start n).HoldsNewest := by
  intro name
  have hone : (start n).handedOver name = {entry | n.store.tables.entries[name]? = some entry} := by
    ext entry
    simp [handedOver, start, Operation.entryOf]
  rw [hone]
  exact newest_toSet _ _

variable {J}

theorem handedOver_cons {h h' : Handed} {op : Operation} (htaken : h'.taken = op :: h.taken)
    (name : Bytes) :
    h'.handedOver name = {entry | op.entryOf name = some entry} ∪ h.handedOver name := by
  ext entry
  simp [handedOver, htaken]

theorem HoldsNewest.mem {h : Handed} (hh : h.HoldsNewest) {name : Bytes} {held : Entry}
    (hheld : h.node.store.tables.entries[name]? = some held) : held ∈ h.handedOver name := by
  have hnewest := hh name
  rw [hheld] at hnewest
  exact hnewest.1

/-- What is handed over keeps every entry the newest exactly where it arrives in its order. -/
theorem HoldsNewest.step_iff {h : Handed} (hh : h.HoldsNewest) (e : HandedEvent) :
    (h.step J e).HoldsNewest ↔ h.node.InOrder J e := by
  have htables := Node.tables_handedStep (J := J) h.node e
  cases hrepeated : h.node.repeated J e with
  | some op =>
    obtain ⟨hnone, table, stamp, rfl, hlive⟩ := Node.repeated_eq_some hrepeated
    obtain ⟨held, hheld, hdeclared⟩ := Option.bind_eq_some_iff.mp hlive
    have htaken : (h.step J e).taken = .create table stamp :: h.taken := by
      simp [Handed.step, hnone, hrepeated]
    -- the schema stays as it is, and the entry held has to be the newest still
    have hsame : (h.step J e).node.store.tables = h.node.store.tables := by
      rw [Handed.step, htables, hnone]
      rfl
    have hiff : h.node.InOrder J e ↔ stamp.isNewer held.stamp = false := by
      simp only [Node.InOrder, hnone, hrepeated, Option.mem_def, reduceCtorEq, false_imp_iff,
        implies_true, true_and, Option.some.injEq, forall_eq', Operation.Precedes]
      exact ⟨fun hall => hall held hheld, fun hle other hother => by
        rw [← Option.some.inj (hheld.symm.trans hother)]
        exact hle⟩
    rw [hiff]
    constructor
    · intro hnewest
      have hone := hnewest table.name
      rw [handedOver_cons htaken, hsame, show h.node.store.tables.entries[table.name]? = some held
        from hheld] at hone
      exact Operation.isNewer_eq_false (a := ⟨stamp, some table⟩).mpr
        (hone.2 _ (Or.inl (if_pos rfl)))
    · intro hle name
      rw [handedOver_cons htaken, hsame]
      refine (newest_toSet _ _).keeps (hh name) ⟨Or.inr rfl, ?_⟩
      rintro x (hx | hx)
      · obtain ⟨hname, rfl⟩ : table.name = name ∧ (⟨stamp, some table⟩ : Entry) = x := by
          simpa [Operation.entryOf] using hx
        exact ⟨held, hname ▸ hheld, Operation.isNewer_eq_false.mp hle⟩
      · exact ⟨x, hx, le_refl _⟩
  | none =>
    cases hop : h.node.operation J e with
    | none =>
      have htaken : (h.step J e).taken = h.taken := by simp [Handed.step, hop, hrepeated]
      refine iff_of_true (fun name => ?_) (by simp [Node.InOrder, hop, hrepeated])
      rw [show (h.step J e).handedOver name = h.handedOver name by simp [handedOver, htaken],
        Handed.step, htables, hop]
      exact hh name
    | some op =>
      have htaken : (h.step J e).taken = op :: h.taken := by simp [Handed.step, hop, hrepeated]
      have happly : (h.step J e).node.store.tables = op.apply h.node.store.tables := by
        rw [Handed.step, htables, hop]
        rfl
      have hiff : h.node.InOrder J e ↔ op.Follows h.node.store.tables := by
        simp [Node.InOrder, hop, hrepeated]
      rw [hiff]
      constructor
      · intro hnewest
        refine Operation.follows_of_newest (S := (h.step J e).handedOver) ?_ fun name => ?_
        · intro name held hheld
          rw [handedOver_cons htaken]
          exact Or.inr (hh.mem hheld)
        · rw [← happly]
          exact hnewest name
      · intro hfollows name
        rw [handedOver_cons htaken, happly]
        exact (newest_toSet _ _).keeps (hh name) (Operation.keeps_apply hfollows name)

end Handed

/-- **The versions of the entries of a schema.** The entry of every name is the newest of what a
node took on throughout exactly if each operation arrives in its order, and then nodes that took on
the same, with no two entries of a name in one version, hold the same schema. -/
theorem newest_entries (J : JsonCodec) :
    (∀ (n : Node) (es : List HandedEvent),
      Always (Handed.step J) Handed.HoldsNewest (Handed.start n) es ↔
        Throughout (Handed.step J) (fun h e => h.node.InOrder J e) (Handed.start n) es) ∧
      ∀ (n n' : Node) (es es' : List HandedEvent),
        Throughout (Handed.step J) (fun h e => h.node.InOrder J e) (Handed.start n) es →
        Throughout (Handed.step J) (fun h e => h.node.InOrder J e) (Handed.start n') es' →
        (∀ name, (run (Handed.step J) (Handed.start n) es).handedOver name =
          (run (Handed.step J) (Handed.start n') es').handedOver name) →
        (∀ name, Newest.Coherent Entry.rank
          ((run (Handed.step J) (Handed.start n) es).handedOver name)) →
        (run (Handed.step J) (Handed.start n) es).node.store.tables =
          (run (Handed.step J) (Handed.start n') es').node.store.tables := by
  have hkeep : ∀ h e, Handed.HoldsNewest h → h.node.InOrder J e → (h.step J e).HoldsNewest :=
    fun h e hh hin => (hh.step_iff e).mpr hin
  refine ⟨fun n es => ?_, fun n n' es es' hes hes' hsame hcoherent => ?_⟩
  · exact always_iff_throughout (Q := fun _ => True) (fun _ hh => hh)
      (fun h e hh _ hin => hkeep h e hh hin) (fun h e hh _ hafter => (hh.step_iff e).mp hafter)
      (Handed.holdsNewest_start n) (Throughout.always (fun _ _ _ _ => trivial) trivial
        (throughout_true _ es))
  · have hleft := hes.invariant hkeep (Handed.holdsNewest_start n)
    have hright := hes'.invariant hkeep (Handed.holdsNewest_start n')
    ext1 name
    exact (hleft name).unique (hcoherent name) (hsame name ▸ hright name)

/-- A create or a delete of the table `t` as a leader carries it to its peers. -/
def createOrderedAs (count : ℕ) : HandedEvent :=
  .put {}
    { method := .put, path := [ascii "table", ascii "t"], forwarded := true, term := 9, count }
    (ascii "t")

def deleteOrderedAs (count : ℕ) : HandedEvent :=
  .delete {} { method := .delete, path := [ascii "table", ascii "t"], forwarded := true, term := 9,
               count } (ascii "t")

/-- A node that a delete arrives at twice, after the create it follows. -/
def deletedTwice : List HandedEvent := [createOrderedAs 1, deleteOrderedAs 2, deleteOrderedAs 2]

/-- One that the create arrives at twice. -/
def createdTwice : List HandedEvent := [createOrderedAs 1, createOrderedAs 1, deleteOrderedAs 2]

/-- Both hold the newest of what they took on, and the same schema. -/
theorem newest_entries_ordered :
    Always (Handed.step JsonText.codec) Handed.HoldsNewest
        (Handed.start (Node.fresh JsonText.codec)) deletedTwice ∧
      (run (Handed.step JsonText.codec) (Handed.start (Node.fresh JsonText.codec))
        deletedTwice).node.store.tables =
      (run (Handed.step JsonText.codec) (Handed.start (Node.fresh JsonText.codec))
        createdTwice).node.store.tables := by
  have hdeleted : Throughout (Handed.step JsonText.codec)
      (fun h e => h.node.InOrder JsonText.codec e) (Handed.start (Node.fresh JsonText.codec))
      deletedTwice := by
    decide +kernel
  obtain ⟨hnewest, hsame⟩ := newest_entries JsonText.codec
  have hone : ∀ name, ∀ entry ∈ (run (Handed.step JsonText.codec)
      (Handed.start (Node.fresh JsonText.codec)) deletedTwice).handedOver name,
      entry = ⟨⟨9, 2⟩, none⟩ ∨ entry = ⟨⟨9, 1⟩, some ⟨ascii "t", []⟩⟩ := by
    rintro name entry ⟨op, hop, hentry⟩
    change op ∈ [Operation.remove (ascii "t") ⟨9, 2⟩, .remove (ascii "t") ⟨9, 2⟩,
      .create ⟨ascii "t", []⟩ ⟨9, 1⟩, .merge ∅] at hop
    simp only [List.mem_cons, List.not_mem_nil, or_false] at hop
    rcases hop with rfl | rfl | rfl | rfl
    · exact Or.inl (Option.some.inj (Option.ite_none_right_eq_some.mp hentry).2).symm
    · exact Or.inl (Option.some.inj (Option.ite_none_right_eq_some.mp hentry).2).symm
    · exact Or.inr (Option.some.inj (Option.ite_none_right_eq_some.mp hentry).2).symm
    · change (∅ : Std.ExtTreeMap Bytes Entry)[name]? = some entry at hentry
      simp at hentry
  refine ⟨(hnewest _ _).mpr hdeleted, hsame _ _ _ _ hdeleted (by decide +kernel) ?_ ?_⟩
  · intro name
    ext entry
    change (∃ op ∈ [Operation.remove (ascii "t") ⟨9, 2⟩, .remove (ascii "t") ⟨9, 2⟩,
        .create ⟨ascii "t", []⟩ ⟨9, 1⟩, .merge _], _) ↔
      ∃ op ∈ [Operation.remove (ascii "t") ⟨9, 2⟩, .create ⟨ascii "t", []⟩ ⟨9, 1⟩,
        .create ⟨ascii "t", []⟩ ⟨9, 1⟩, .merge _], _
    simp
  · intro name x hx y hy hrank
    have hstamp : x.stamp = y.stamp := Version.rank_inj.mp hrank
    rcases hone name x hx with rfl | rfl <;> rcases hone name y hy with rfl | rfl
    · rfl
    · exact absurd hstamp (by decide)
    · exact absurd hstamp (by decide)
    · rfl

/-- A create that timed out arrives after the delete that followed it in the same term: the table is
back in its older version, and a node that took them in their order does not have it. -/
theorem not_newest_lateCreate :
    let late := run (Handed.step JsonText.codec) (Handed.start (Node.fresh JsonText.codec))
      [deleteOrderedAs 2, createOrderedAs 1]
    let ordered := run (Handed.step JsonText.codec) (Handed.start (Node.fresh JsonText.codec))
      [createOrderedAs 1, deleteOrderedAs 2]
    ¬late.HoldsNewest ∧
      late.node.store.tables.entries[ascii "t"]? = some ⟨⟨9, 1⟩, some ⟨ascii "t", []⟩⟩ ∧
      ordered.node.store.tables.entries[ascii "t"]? = some ⟨⟨9, 2⟩, none⟩ := by
  intro late ordered
  have hlate : late.node.store.tables.entries[ascii "t"]? =
      some ⟨⟨9, 1⟩, some ⟨ascii "t", []⟩⟩ := by decide +kernel
  have hordered : ordered.node.store.tables.entries[ascii "t"]? = some ⟨⟨9, 2⟩, none⟩ := by
    decide +kernel
  refine ⟨fun hnewest => ?_, hlate, hordered⟩
  have hone := hnewest (ascii "t")
  rw [hlate] at hone
  have htaken : late.taken.any
      (fun op => decide (op.entryOf (ascii "t") = some ⟨⟨9, 2⟩, none⟩)) = true := by decide +kernel
  obtain ⟨op, hop, htombstone⟩ := List.any_eq_true.mp htaken
  have hle := hone.2 ⟨⟨9, 2⟩, none⟩ ⟨op, hop, of_decide_eq_true htombstone⟩
  exact absurd (Operation.isNewer_eq_false.mpr hle) (by decide)

end AsyncDatabase
