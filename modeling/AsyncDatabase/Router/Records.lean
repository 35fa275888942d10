import AsyncDatabase.Router.Tables

/-!
# The routes of a record

Reading and writing one record (`router/router.cpp`). A client's write goes to the node that leads
the key's partition, which stamps it, writes its own copy and sends it on to the other copies; a
write that carries a term is one a leader ordered, and the fence decides whether it is applied.
-/

namespace AsyncDatabase

open Bytes (ascii)
open Throwing

namespace Node

variable (w : Seams)

def nodeAlone : Response :=
  errorResponse .nodeAlone
    (ascii "This node has no membership but itself, so it cannot say which node holds a key.")

def methodNotAllowed (method : Verb) : Response :=
  let name := match method with
    | .get => ascii "GET"
    | .head => ascii "HEAD"
    | .put => ascii "PUT"
    | .delete => ascii "DELETE"
    | .other name => name
  errorResponse .methodNotAllowed (name ++ ascii " is not allowed here.")

/-- A node that came up short of its share may never have read the table that is asked for. -/
def missingTable (n : Node) (name : Bytes) : Response :=
  if n.isIncomplete then nodeIncomplete else tableNotFound name

/-- `read_here`: what this node's own store says of a key. -/
def readHere (name key : Bytes) : Route Response := do
  match ← onStore (Store.readRecord w.db name key) with
  | some value => pure (textResponse 200 value)
  | none =>
    let n ← get
    if n.isShortOf (partitionOf key) then pure nodeIncomplete else pure (emptyResponse 404)

/-- `read_record`: the copies in turn, passing over one that does not answer or cannot say. -/
def readRecord (request : Request) : List Bytes → Response → Response
  | [], answer => answer
  | replica :: replicas, _ =>
    let answer := w.forward replica request
    if answer.status < 500 then answer else readRecord request replicas answer

/-- The answer a walk of the copies starts out with. -/
def nobodyAnswered : Response :=
  errorResponse .storageError (ascii "No node holding this key answered.")

/-- `apply_write`: a write another node ordered, applied in the version it was stamped with. -/
def applyWrite (request : Request) (name : Bytes) (record : Record) : Route Response := do
  if request.term = 0 then
    pure (errorResponse .noLeader (ascii "This node does not lead this key's partition."))
  else if ← accept record.key request.term then
    carryOut (partitionOf record.key) request.term
      (Store.writeRecord w.db name { record with stamp := ⟨request.term, request.count⟩ })
    pure (emptyResponse 204)
  else
    pure (errorResponse .staleLeader
      (ascii "This key is led in a later term than the one that ordered this write."))

/-- `lead_write`: a write this node orders, sent to every copy at once. -/
def leadWrite (request : Request) (name : Bytes) (record : Record) (lead : Leadership) :
    Route Response := do
  let count ← onStore (Store.nextCount w.db)
  let place := w.replicas record.key
  if place.isLocal then
    carryOut (partitionOf record.key) lead.term
      (Store.writeRecord w.db name { record with stamp := ⟨lead.term, count⟩ })
  let answers := w.forwardAll place.nodes (request.carried lead.term count)
  pure ((refusal answers).getD (emptyResponse 204))

/-- What `lead_write` does before it sends the write on: the record is stamped, and written where
this node has a copy of its own. -/
def orderWrite (name : Bytes) (record : Record) (lead : Leadership) : Route Record := do
  let count ← onStore (Store.nextCount w.db)
  let stamped := { record with stamp := ⟨lead.term, count⟩ }
  if (w.replicas record.key).isLocal then
    carryOut (partitionOf record.key) lead.term (Store.writeRecord w.db name stamped)
  pure stamped

/-- A write is ordered and then sent to the other copies in the version it was stamped with. -/
theorem leadWrite_eq (request : Request) (name : Bytes) (record : Record) (lead : Leadership)
    (n : Node) : leadWrite w request name record lead n =
      match orderWrite w name record lead n with
      | .ok stamped n' => .ok ((refusal (w.forwardAll (w.replicas record.key).nodes
          (request.carried stamped.stamp.term stamped.stamp.count))).getD (emptyResponse 204)) n'
      | .error e n' => .error e n' := by
  unfold leadWrite orderWrite
  rw [run_bind, run_bind]
  cases onStore (Store.nextCount w.db) n with
  | error e n' => rfl
  | ok count n' =>
    dsimp only
    split_ifs
    · rw [run_bind, run_bind]
      cases carryOut (partitionOf record.key) lead.term
        (Store.writeRecord w.db name { record with stamp := ⟨lead.term, count⟩ }) n' <;> rfl
    · rfl

/-- Whether a record's route is asked for with a verb it has. -/
def isRecordVerb (method : Verb) : Bool := method = .put ∨ method = .get ∨ method = .head

/-- The record a request names, with its body where it writes one. -/
def parseRequest (request : Request) (partition sort : Bytes) : Except ErrorMessage Record :=
  let key := Record.composeKey partition sort
  if request.method = .put then Record.parseRecord key request.body else Record.parseKey key

/-- The key of the record a request names. -/
theorem key_of_parseRequest {request : Request} {partition sort : Bytes} {record : Record}
    (h : parseRequest request partition sort = .ok record) :
    record.key = Record.composeKey partition sort := by
  unfold parseRequest at h
  dsimp only at h
  split_ifs at h
  · exact Record.key_of_parseRecord h
  · exact Record.key_of_parseKey h

/-- `route_record`: a client's request for a record. -/
def routeRecord (request : Request) (name partition sort : Bytes) : Route Response := do
  if !isRecordVerb request.method then pure (methodNotAllowed request.method)
  else match parseRequest request partition sort with
    | .error refused => pure refused.response
    | .ok record =>
      let n ← get
      if request.method ≠ .put ∧ w.isAlone then pure nodeAlone
      else if !n.store.tables.has name then pure (n.missingTable name)
      else if request.method ≠ .put then
        let place := w.replicas record.key
        if !place.isLocal then pure (readRecord w request place.nodes nobodyAnswered)
        else
          match ← onStore (Store.readRecord w.db name record.key) with
          | some value => pure (textResponse 200 value)
          | none =>
            if place.nodes ≠ [] then pure (readRecord w request place.nodes nobodyAnswered)
            else readHere w name record.key
      else
        let lead ← leader w record.key
        if lead.isLocal then leadWrite w request name record lead
        else if !lead.known then
          pure (errorResponse .noLeader
            (ascii "No node is leading this key's partition yet."))
        else pure (w.forward lead.node request)

/-- `route_forwarded_record`: a request another node sent here. -/
def routeForwardedRecord (request : Request) (name partition sort : Bytes) : Route Response := do
  if !isRecordVerb request.method then pure (methodNotAllowed request.method)
  else match parseRequest request partition sort with
    | .error refused => pure refused.response
    | .ok record =>
      if request.method ≠ .put then readHere w name record.key
      else if request.term ≠ 0 then applyWrite w request name record
      else
        let lead ← leader w record.key
        if !lead.isLocal then applyWrite w request name record
        else leadWrite w request name record lead

/-- The route of a record, which a request another node sent on takes another way. -/
def record (request : Request) (name partition sort : Bytes) : Route Response :=
  if request.forwarded then routeForwardedRecord w request name partition sort
  else routeRecord w request name partition sort

end Node

end AsyncDatabase
