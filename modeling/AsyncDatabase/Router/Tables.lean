import AsyncDatabase.Node
import AsyncDatabase.Repository.Effect

/-!
# The routes of the tables

Creating and deleting a table (`router/router.cpp`): the node that leads the tables orders an
operation and stamps it, and every other node carries out what was ordered.
-/

namespace AsyncDatabase

open Bytes (ascii)
open Throwing

namespace Node

variable (J : JsonCodec) (w : Seams)

/-- `router::ordering`, as far as the operation goes on: the nodes it is sent to and the term it was
ordered in. -/
structure Ordering where
  peers : List Bytes := []
  term : ℤ := 0
  carried : Bool := false

def tableNotFound (name : Bytes) : Response :=
  errorResponse .tableNotFound (ascii "No table named \"" ++ name ++ ascii "\".")

def nodeIncomplete : Response :=
  errorResponse .nodeIncomplete
    (ascii "This node holds less than it owns, so it cannot say a key is missing.")

/-- `parse_body`: no body is a document without members. -/
def parseBody (body : Bytes) : Option Json :=
  if body = [] then some (.object []) else (J.parse body).filter Json.isObject

/-- `order_schema`: the ordering of an operation, or the answer that ends it here. -/
def orderSchema (request : Request) : Route (Except Response Ordering) := do
  if request.term ≠ 0 then
    if ← accept tableKey request.term then pure (.ok { carried := true })
    else pure (.error (errorResponse .staleLeader
      (ascii "The tables are led in a later term than the one that ordered this.")))
  else
    let lead ← leader w tableKey
    if !lead.known then
      pure (.error (errorResponse .noLeader (ascii "No node is leading the tables yet.")))
    else if !lead.isLocal then
      if request.forwarded then
        pure (.error (errorResponse .noLeader (ascii "This node does not lead the tables.")))
      else pure (.error (w.forward lead.node request))
    else pure (.ok { peers := w.peers, term := lead.term })

/-- `schema_stamp`: the version a carried operation was given, or the next of this node's own. -/
def schemaStamp (request : Request) (order : Ordering) : Route Version := do
  if order.carried then pure { term := request.term, count := request.count }
  else
    let count ← onStore (Store.nextCount w.db)
    pure { term := order.term, count }

/-- The answer of an operation once every node it was sent to has answered. -/
def carriedOut (request : Request) (order : Ordering) (stamp : Version) (done : Response) :
    Response :=
  (refusal (w.forwardAll order.peers (request.carried order.term stamp.count))).getD done

/-- What `create_table` does once it is ordered. -/
def createOrdered (request : Request) (name : Bytes) (body : Json) (order : Ordering) :
    Route Response := do
  let n ← get
  match Table.parseTable name body fun other => n.store.tables.tables.any (·.name = other) with
  | .error refused => pure refused.response
  | .ok table =>
    let existing := n.store.tables.read name
    let stamp ← schemaStamp w request order
    match existing with
    | .ok existing =>
      if existing ≠ table then
        pure (errorResponse .tableExists
          (ascii "A table named \"" ++ name ++ ascii "\" exists with different options."))
      else pure (carriedOut w request order stamp (jsonResponse 200 table.toJson))
    | .error _ =>
      carryOut tablePartition stamp.term (Store.createTable J w.db table stamp)
      pure (carriedOut w request order stamp (jsonResponse 201 table.toJson))

def createTable (request : Request) (name : Bytes) : Route Response := do
  match parseBody J request.body with
  | none => pure (errorResponse .invalidBody (ascii "The body of a table is a JSON object."))
  | some body =>
    match ← orderSchema w request with
    | .error answer => pure answer
    | .ok order => createOrdered J w request name body order

/-- What `delete_table` does once it is ordered. -/
def deleteOrdered (request : Request) (name : Bytes) (order : Ordering) : Route Response := do
  let stamp ← schemaStamp w request order
  let n ← get
  if !n.store.tables.has name then
    -- a name this node never had is a tombstone all the same where another node ordered it
    if order.carried then
      carryOut tablePartition stamp.term (Store.deleteTable J w.db name stamp)
      pure (emptyResponse 204)
    else if n.isIncomplete then pure nodeIncomplete
    else pure (carriedOut w request order stamp (tableNotFound name))
  else
    carryOut tablePartition stamp.term (Store.deleteTable J w.db name stamp)
    pure (carriedOut w request order stamp (emptyResponse 204))

def deleteTable (request : Request) (name : Bytes) : Route Response := do
  match ← orderSchema w request with
  | .error answer => pure answer
  | .ok order => deleteOrdered J w request name order

/-! ### What the routes of the tables do to a node -/

/-- The node has done nothing on its store: it may have seen a later term. -/
structure Quiet (n n' : Node) : Prop where
  store : n'.store = n.store
  done : n'.done = n.done
  accepted : n.accepted ≤ n'.accepted

theorem quiet_raise (n : Node) (partition : Partition) (term : ℤ) :
    n.Quiet (n.raise partition term) where
  store := rfl
  done := rfl
  accepted other := by
    by_cases h : other = partition
    · subst h
      simp [raise]
    · simp [raise, h]

/-- The node after it asked who leads a key. -/
def led (n : Node) (key : Bytes) : Node :=
  if w.claimed key then n.raise (partitionOf key) (w.leader key).term else n

theorem quiet_led (n : Node) (key : Bytes) : n.Quiet (n.led w key) := by
  unfold led
  split_ifs
  · exact quiet_raise n _ _
  · exact ⟨rfl, rfl, le_refl _⟩

theorem leader_eq (key : Bytes) (n : Node) : leader w key n = .ok (w.leader key) (n.led w key) := by
  unfold leader led
  split_ifs with h
  · rfl
  · rfl

/-- Ordering an operation of the schema: it was carried here in a term that is let through, or this
node leads the tables, or it ends here. -/
theorem orderSchema_cases (request : Request) (n : Node) :
    (request.term ≠ 0 ∧ n.accepted tablePartition ≤ request.term ∧
        orderSchema w request n =
          .ok (.ok { carried := true }) (n.raise tablePartition request.term)) ∨
      (request.term = 0 ∧ (w.leader tableKey).known = true ∧ (w.leader tableKey).isLocal = true ∧
        orderSchema w request n =
          .ok (.ok { peers := w.peers, term := (w.leader tableKey).term }) (n.led w tableKey)) ∨
      ((request.term ≠ 0 → request.term < n.accepted tablePartition) ∧
        ∃ answer n', orderSchema w request n = .ok (.error answer) n' ∧ n.Quiet n') := by
  unfold orderSchema
  by_cases hterm : request.term = 0
  · rw [if_neg (not_not.mpr hterm), run_bind, leader_eq]
    dsimp only
    by_cases hknown : (w.leader tableKey).known = true
    · by_cases hlocal : (w.leader tableKey).isLocal = true
      · refine Or.inr (Or.inl ⟨hterm, hknown, hlocal, ?_⟩)
        simp [hknown, hlocal]
      · refine Or.inr (Or.inr ⟨fun h => absurd hterm h, ?_⟩)
        simp only [hknown, hlocal, Bool.not_true, Bool.false_eq_true, if_false]
        cases request.forwarded <;> exact ⟨_, _, rfl, quiet_led w n tableKey⟩
    · refine Or.inr (Or.inr ⟨fun h => absurd hterm h, ?_⟩)
      simp only [hknown]
      exact ⟨_, _, rfl, quiet_led w n tableKey⟩
  · have haccept : accept tableKey request.term n =
        .ok (decide (n.accepted tablePartition ≤ request.term))
          (n.raise tablePartition request.term) := by
      rw [accept, if_neg hterm]
      rfl
    rw [if_pos hterm, run_bind, haccept]
    by_cases hle : n.accepted tablePartition ≤ request.term
    · refine Or.inl ⟨hterm, hle, ?_⟩
      simp [hle]
    · refine Or.inr (Or.inr ⟨fun _ => not_le.mp hle, ?_⟩)
      simp only [hle, decide_false]
      exact ⟨_, _, rfl, quiet_raise n _ _⟩

/-- The version an operation is stamped with carries the term it was ordered in, and taking it
changes nothing but the counts. -/
theorem schemaStamp_cases (request : Request) (order : Ordering) (n : Node) :
    ∃ s, s.SameTables n.store ∧
      ((∃ stamp, schemaStamp w request order n = .ok stamp { n with store := s } ∧
          stamp.term = (if order.carried then request.term else order.term) ∧
          (order.carried → stamp = ⟨request.term, request.count⟩ ∧ s = n.store)) ∨
        (order.carried = false ∧
          ∃ e, schemaStamp w request order n = .error e { n with store := s })) := by
  unfold schemaStamp
  cases hcarried : order.carried with
  | true => exact ⟨n.store, Store.SameTables.refl _, Or.inl ⟨_, rfl, rfl, fun _ => ⟨rfl, rfl⟩⟩⟩
  | false =>
    have hsame := Store.sameTables_nextCount w.db n.store
    simp only [Bool.false_eq_true, if_false, run_bind, onStore]
    cases hcount : Store.nextCount w.db n.store with
    | ok count s =>
      rw [hcount] at hsame
      exact ⟨s, hsame, Or.inl ⟨_, rfl, rfl, fun h => by simp at h⟩⟩
    | error e s =>
      rw [hcount] at hsame
      exact ⟨s, hsame, Or.inr ⟨trivial, e, rfl⟩⟩

/-- What an operation that reached its store left there, and that it is written down where the store
took it. -/
theorem carryOut_cases (partition : Partition) (term : ℤ) (x : Action Unit) (n : Node) :
    (∃ s, x n.store = .ok () s ∧
        carryOut partition term x n =
          .ok () { n with store := s, done := (partition, term) :: n.done }) ∨
      (∃ e s, x n.store = .error e s ∧ carryOut partition term x n =
        .error e { n with store := s }) := by
  unfold carryOut
  rw [run_bind, onStore]
  cases hx : x n.store with
  | ok a s => exact Or.inl ⟨s, rfl, rfl⟩
  | error e s => exact Or.inr ⟨e, s, rfl, rfl⟩

theorem store_carryOut (partition : Partition) (term : ℤ) (x : Action Unit) (n : Node) :
    (after (carryOut partition term x n)).store = after (x n.store) := by
  rcases carryOut_cases partition term x n with ⟨s, hx, h⟩ | ⟨e, s, hx, h⟩ <;> rw [h, hx] <;> rfl

/-- A store that only took counts, on the node as it was. -/
def Counted (n n' : Node) : Prop := ∃ s, s.SameTables n.store ∧ n' = { n with store := s }

theorem Counted.refl (n : Node) : n.Counted n := ⟨n.store, Store.SameTables.refl _, rfl⟩

/-- Creating a table once it is ordered carries nothing out, or creates a valid table the node did
not have. -/
theorem createOrdered_cases (request : Request) (name : Bytes) (body : Json) (order : Ordering)
    (n : Node) :
    n.Counted (after (createOrdered J w request name body order n)) ∨
      ∃ table stamp n', n.Counted n' ∧ table.name = name ∧ Table.isValidName name = true ∧
        (∀ dependency ∈ table.dependencies, n.store.tables.has dependency = true) ∧
        n.store.tables.has name = false ∧
        stamp.term = (if order.carried then request.term else order.term) ∧
        after (createOrdered J w request name body order n) =
          after (carryOut tablePartition stamp.term (Store.createTable J w.db table stamp) n') := by
  unfold createOrdered
  rw [run_bind_get]
  cases hparse : Table.parseTable name body
      fun other => n.store.tables.tables.any (·.name = other) with
  | error refused => exact Or.inl (Counted.refl n)
  | ok table =>
    obtain ⟨hname, hvalid, hdeps⟩ := Table.parseTable_ok hparse
    dsimp only
    obtain ⟨s, hsame, ⟨stamp, hstamp, hterm, -⟩ | ⟨-, e, hstamp⟩⟩ :=
      schemaStamp_cases w request order n
    · rw [run_bind, hstamp]
      dsimp only
      cases hread : n.store.tables.read name with
      | ok existing =>
        dsimp only
        split_ifs <;> exact Or.inl ⟨s, hsame, rfl⟩
      | error missing =>
        refine Or.inr ⟨table, stamp, { n with store := s }, ⟨s, hsame, rfl⟩, hname, hvalid, ?_, ?_,
          hterm, ?_⟩
        · intro dependency hd
          obtain ⟨other, hother, hnamed⟩ := List.any_eq_true.mp (hdeps dependency hd)
          exact Schema.has_of_mem_tables hother (of_decide_eq_true hnamed)
        · exact Schema.has_eq_false_of_read hread
        · dsimp only
          rw [run_bind]
          rcases carryOut_cases tablePartition stamp.term (Store.createTable J w.db table stamp)
            { n with store := s } with ⟨t, -, h⟩ | ⟨e, t, -, h⟩ <;> rw [h] <;> rfl
    · rw [run_bind, hstamp]
      exact Or.inl ⟨s, hsame, rfl⟩

/-- Deleting a table once it is ordered carries nothing out, or deletes a table the node has or one
the delete was carried here for. -/
theorem deleteOrdered_cases (request : Request) (name : Bytes) (order : Ordering) (n : Node) :
    (n.Counted (after (deleteOrdered J w request name order n)) ∧
        order.carried = false) ∨
      ∃ stamp n', n.Counted n' ∧ (n.store.tables.has name = true ∨ order.carried = true) ∧
        stamp.term = (if order.carried then request.term else order.term) ∧
        (order.carried → stamp = ⟨request.term, request.count⟩ ∧ n' = n) ∧
        after (deleteOrdered J w request name order n) =
          after (carryOut tablePartition stamp.term (Store.deleteTable J w.db name stamp) n') := by
  unfold deleteOrdered
  obtain ⟨s, hsame, ⟨stamp, hstamp, hterm, hcarried⟩ | ⟨hlead, e, hstamp⟩⟩ :=
    schemaStamp_cases w request order n
  · have hrest : ∀ (answer : Response), after
        ((carryOut tablePartition stamp.term (Store.deleteTable J w.db name stamp) >>= fun _ =>
          pure answer) { n with store := s }) =
        after (carryOut tablePartition stamp.term (Store.deleteTable J w.db name stamp)
          { n with store := s }) := by
      intro answer
      rw [run_bind]
      rcases carryOut_cases tablePartition stamp.term (Store.deleteTable J w.db name stamp)
        { n with store := s } with ⟨t, -, h⟩ | ⟨e, t, -, h⟩ <;> rw [h] <;> rfl
    have hnode : order.carried = true → ({ n with store := s } : Node) = n := fun h => by
      rw [(hcarried h).2]
    rw [run_bind, hstamp]
    simp only [run_bind_get, hsame.tables]
    cases hhas : n.store.tables.has name with
    | true =>
      exact Or.inr ⟨stamp, { n with store := s }, ⟨s, hsame, rfl⟩, Or.inl rfl, hterm,
        fun h => ⟨(hcarried h).1, hnode h⟩, hrest _⟩
    | false =>
      cases horder : order.carried with
      | true =>
        rw [horder] at hterm
        exact Or.inr ⟨stamp, { n with store := s }, ⟨s, hsame, rfl⟩, Or.inr rfl, hterm,
          fun _ => ⟨(hcarried horder).1, hnode horder⟩, hrest _⟩
      | false =>
        refine Or.inl ⟨⟨s, hsame, ?_⟩, rfl⟩
        simp only [Bool.not_false, if_true, Bool.false_eq_true, if_false]
        split_ifs <;> rfl
  · rw [run_bind, hstamp]
    exact Or.inl ⟨⟨s, hsame, rfl⟩, hlead⟩

/-- An operation of the schema goes on at this node in this term, which is then the term of the
leadership or one the fence lets through. -/
inductive Ordered (request : Request) (n : Node) : Node → ℤ → Prop
  | carried (hterm : request.term ≠ 0) (hfence : n.accepted tablePartition ≤ request.term) :
    Ordered request n (n.raise tablePartition request.term) request.term
  | led (hterm : request.term = 0) (hknown : (w.leader tableKey).known = true)
    (hlocal : (w.leader tableKey).isLocal = true) :
    Ordered request n (n.led w tableKey) (w.leader tableKey).term

theorem Ordered.quiet {request : Request} {n n' : Node} {term : ℤ}
    (h : Ordered w request n n' term) : n.Quiet n' := by
  cases h with
  | carried => exact quiet_raise n _ _
  | led => exact quiet_led w n _

/-- What is carried here goes on only where the fence lets its term through. -/
theorem Ordered.fence {request : Request} {n n' : Node} {term : ℤ}
    (h : Ordered w request n n' term) (hterm : request.term ≠ 0) :
    n.accepted tablePartition ≤ request.term := by
  cases h with
  | carried _ hfence => exact hfence
  | led hno => exact absurd hno hterm

/-- The node carried nothing out: it may have seen a later term and taken a count. -/
def Idle (n n' : Node) : Prop := ∃ mid, n.Quiet mid ∧ mid.Counted n'

theorem Idle.sameTables {n n' : Node} (h : n.Idle n') : n'.store.SameTables n.store := by
  obtain ⟨mid, hquiet, s, hsame, rfl⟩ := h
  rw [← hquiet.store]
  exact hsame

theorem Idle.refl (n : Node) : n.Idle n := ⟨n, ⟨rfl, rfl, le_refl _⟩, Counted.refl n⟩

/-- **What a request to create a table does to a node.** -/
theorem createTable_cases (request : Request) (name : Bytes) (n : Node) :
    n.Idle (after (createTable J w request name n)) ∨
      ∃ table stamp mid n', Ordered w request n mid stamp.term ∧ mid.Counted n' ∧
        table.name = name ∧ Table.isValidName name = true ∧
        (∀ dependency ∈ table.dependencies, n.store.tables.has dependency = true) ∧
        n.store.tables.has name = false ∧
        after (createTable J w request name n) =
          after (carryOut tablePartition stamp.term (Store.createTable J w.db table stamp) n') := by
  unfold createTable
  cases hbody : parseBody J request.body with
  | none => exact Or.inl (Idle.refl n)
  | some body =>
    dsimp only
    rw [run_bind]
    rcases orderSchema_cases w request n with
      ⟨hterm, hfence, h⟩ | ⟨hterm, hknown, hlocal, h⟩ | ⟨-, answer, mid, h, hquiet⟩
    · rw [h]
      dsimp only
      rcases createOrdered_cases J w request name body { carried := true }
        (n.raise tablePartition request.term) with hcount |
        ⟨table, stamp, n', hcount, hname, hvalid, hdeps, hnew, hstamp, heq⟩
      · exact Or.inl ⟨_, quiet_raise n _ _, hcount⟩
      · refine Or.inr ⟨table, stamp, _, n', ?_, hcount, hname, hvalid, hdeps, hnew, heq⟩
        rw [hstamp, if_pos rfl]
        exact .carried hterm hfence
    · rw [h]
      dsimp only
      rcases createOrdered_cases J w request name body
        { peers := w.peers, term := (w.leader tableKey).term } (n.led w tableKey) with hcount |
        ⟨table, stamp, n', hcount, hname, hvalid, hdeps, hnew, hstamp, heq⟩
      · exact Or.inl ⟨_, quiet_led w n _, hcount⟩
      · have hstore := (quiet_led w n tableKey).store
        rw [hstore] at hdeps hnew
        refine Or.inr ⟨table, stamp, _, n', ?_, hcount, hname, hvalid, hdeps, hnew, heq⟩
        rw [hstamp, if_neg (by simp)]
        exact .led hterm hknown hlocal
    · rw [h]
      exact Or.inl ⟨mid, hquiet, Counted.refl mid⟩

/-- **What a request to delete a table does to a node.** -/
theorem deleteTable_cases (request : Request) (name : Bytes) (n : Node) :
    (n.Idle (after (deleteTable J w request name n)) ∧
        ¬(request.term ≠ 0 ∧ n.accepted tablePartition ≤ request.term)) ∨
      ∃ stamp mid n', Ordered w request n mid stamp.term ∧ mid.Counted n' ∧
        (n.store.tables.has name = true ∨ request.term ≠ 0) ∧
        (request.term ≠ 0 → stamp = ⟨request.term, request.count⟩ ∧ n' = mid) ∧
        after (deleteTable J w request name n) =
          after (carryOut tablePartition stamp.term (Store.deleteTable J w.db name stamp) n') := by
  unfold deleteTable
  rw [run_bind]
  rcases orderSchema_cases w request n with
    ⟨hterm, hfence, h⟩ | ⟨hterm, hknown, hlocal, h⟩ | ⟨hrefused, answer, mid, h, hquiet⟩
  · rw [h]
    dsimp only
    rcases deleteOrdered_cases J w request name { carried := true }
      (n.raise tablePartition request.term) with ⟨-, hno⟩ |
      ⟨stamp, n', hcount, -, hstamp, hsame, heq⟩
    · simp at hno
    · refine Or.inr ⟨stamp, _, n', ?_, hcount, Or.inr hterm, fun _ => hsame rfl, heq⟩
      rw [hstamp, if_pos rfl]
      exact .carried hterm hfence
  · rw [h]
    dsimp only
    rcases deleteOrdered_cases J w request name
      { peers := w.peers, term := (w.leader tableKey).term } (n.led w tableKey) with ⟨hcount, -⟩ |
      ⟨stamp, n', hcount, hhas, hstamp, -, heq⟩
    · exact Or.inl ⟨⟨_, quiet_led w n _, hcount⟩, fun hno => hno.1 hterm⟩
    · have hstore := (quiet_led w n tableKey).store
      rw [hstore] at hhas
      refine Or.inr ⟨stamp, _, n', ?_, hcount, Or.inl (by simpa using hhas),
        fun hno => absurd hterm hno, heq⟩
      rw [hstamp, if_neg (by simp)]
      exact .led hterm hknown hlocal
  · rw [h]
    exact Or.inl ⟨⟨mid, hquiet, Counted.refl mid⟩, fun hno => not_le.mpr (hrefused hno.1) hno.2⟩

end Node

end AsyncDatabase
