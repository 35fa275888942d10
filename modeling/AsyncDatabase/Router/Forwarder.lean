import AsyncDatabase.Router.Scans

/-!
# Between nodes

How a request is sent on to another node and what comes back of its answer
(`cluster/http_forwarder.cpp`), and what an answer is to the client it goes to
(`router::response_body`, `server/session.cpp`).
-/

namespace AsyncDatabase

open Bytes (ascii)

/-- `headers_of`: a request as the node it is sent on to reads it. -/
def Request.received (request : Request) : Request :=
  { request with forwarded := true, count := if request.term = 0 then 0 else request.count }

namespace Response

/-- An answer is a document where it has members: no route answers with a document that has none. -/
def isDocument (answer : Response) : Bool :=
  match answer.json with
  | .object [] => false
  | _ => true

variable (J : JsonCodec)

/-- `router::response_body`. -/
def body (answer : Response) : Bytes :=
  if answer.isDocument then J.serialize answer.json else answer.text

/-- What the client that sent the request is answered with: a HEAD has no body. -/
def toClient (head : Bool) (answer : Response) : ℕ × Bytes :=
  (answer.status, if head then [] else answer.body J)

/-- `body_of`: what a node that sent a request on makes of the answer. -/
def throughNode (node : Bytes) (head : Bool) (answer : Response) : Response :=
  if head then emptyResponse answer.status
  else if answer.body J = [] then emptyResponse answer.status
  else if !answer.isDocument then textResponse answer.status (answer.body J)
  else match J.parse (answer.body J) with
    | some (.object members) => jsonResponse answer.status (.object members)
    | _ => errorResponse .storageError
        (ascii "Node \"" ++ node ++ ascii "\" answered with something that is not a document.")

end Response

end AsyncDatabase
