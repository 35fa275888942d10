import AsyncDatabase.Router.Records
import AsyncDatabase.Scan

/-!
# The route of a scan

Reading a range of one partition (`router/router.cpp`). A scan is answered by one node: this one
where it holds a copy that is whole, and otherwise the nearest that answers.
-/

namespace AsyncDatabase

open Bytes (ascii)
open Throwing

namespace Scan

/-- What a query is refused for is what is wrong with it. -/
theorem status_of_parseRange {J : JsonCodec} {query instanceName : Bytes} {refused : ErrorMessage}
    (h : Scan.parseRange J query instanceName = .error refused) :
    refused.response.status = 400 := by
  unfold Scan.parseRange at h
  split at h
  · cases h
    rfl
  · dsimp only at h
    split_ifs at h
    · cases h
      rfl
    · split at h <;> cases h
      rfl
    · split at h <;> cases h
      rfl

end Scan

namespace Node

variable (J : JsonCodec) (w : Seams)

/-- `to_json`: a record as a page has it. -/
def recordJson (record : Record) (values : Bool) : Json :=
  let sort := Record.sortKey record.key
  .object ([(ascii "key", .string (Record.partitionKey record.key))] ++
    (if sort = [] then [] else [(ascii "sort", .string sort)]) ++
    (if values then [(ascii "value", .string record.value)] else []))

/-- `page_response`: the records of a page, and the cursor to resume at when there are more. -/
def pageResponse (page : Scan.Page) (range : Scan.Range) : Response :=
  let records := Json.array (page.records.map (recordJson · range.values))
  let next := match page.records.getLast? with
    | some last =>
      if page.hasMore then
        [(ascii "next", .string (Scan.encodeCursor J last.key w.instanceName range.partition))]
      else []
    | none => []
  jsonResponse 200 (.object ((ascii "records", records) :: next))

/-- `answer_page`: the page this node's own store answers with. -/
def answerPage (request : Request) (name : Bytes) : Route Response := do
  match Scan.parseRange J request.query w.instanceName with
  | .error refused => pure refused.response
  | .ok range =>
    let page ← onStore (Store.scanRecords w.db name range)
    pure (pageResponse J w page range)

def scanRecords (request : Request) (name : Bytes) : Route Response := do
  if !request.forwarded ∧ w.isAlone then pure nodeAlone
  else
    let n ← get
    if !n.store.tables.has name then pure (tableNotFound name)
    else match Scan.readPartition request.query with
      | none => pure Scan.unnamedPartition.response
      | some named =>
        let place := if request.forwarded then {} else w.copiesOf named
        let whole := !n.isShortOf named
        if place.isLocal ∧ whole then answerPage J w request name
        -- a copy that may not have filled the partition asks one that can answer
        else if place.nodes ≠ [] then pure (readRecord w request place.nodes nobodyAnswered)
        else if whole then answerPage J w request name
        else pure nodeIncomplete

def routeRange (request : Request) (name : Bytes) : Route Response :=
  if request.method ≠ .get ∧ request.method ≠ .head then pure (methodNotAllowed request.method)
  else scanRecords J w request name

def notFound (what : Bytes) : Response := errorResponse .notFound (ascii "No " ++ what ++ ascii ".")

/-- What `route` does with a path under `/table/{name}/key`. -/
def routeKeys (request : Request) : Route Response :=
  match request.path with
  | table :: name :: key :: rest =>
    if table ≠ ascii "table" ∨ key ≠ ascii "key" then pure (notFound (ascii "route for this path"))
    else match rest with
      | [] => routeRange J w request name
      | [partition] => record w request name partition []
      | [partition, sort] => record w request name partition sort
      | _ => pure (notFound (ascii "route for this path"))
  | _ => pure (notFound (ascii "route for this path"))

/-- What a session answers: the route's answer, or what it threw as one. -/
def respond (x : Route Response) (n : Node) : Response :=
  match x n with
  | .ok answer _ => answer
  | .error thrown _ => thrown.response

end Node

end AsyncDatabase
