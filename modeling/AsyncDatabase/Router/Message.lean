import AsyncDatabase.Error
import AsyncDatabase.Library.Json

/-!
# Requests and answers

What is sent to a node and what it answers (`router/request.h`, `router/response.cpp`,
`router/api_error.cpp`, `cluster/forwarder.cpp`).
-/

namespace AsyncDatabase

open Bytes (ascii)

/-- `boost::beast::http::verb`, as far as the routes tell verbs apart. -/
inductive Verb where
  | get
  | head
  | put
  | delete
  | other (name : Bytes)
  deriving DecidableEq, Repr

/-- `router::request`. A request another node sent on says so, and one a leader ordered carries the
version it was ordered in; no term is a request nobody ordered. -/
structure Request where
  method : Verb
  path : List Bytes
  query : Bytes := []
  body : Bytes := []
  forwarded : Bool := false
  term : ℤ := 0
  count : ℕ := 0
  deriving DecidableEq, Repr

/-- The request as the node that ordered it sends it on. -/
def Request.carried (request : Request) (term : ℤ) (count : ℕ) : Request :=
  { request with term, count }

/-- `router::response`. -/
structure Response where
  status : ℕ
  json : Json := .object []
  text : Bytes := []

/-- `router::error_status`. -/
def errorStatus : Code → ℕ
  | .tableNotFound | .notFound => 404
  | .tableExists | .staleLeader => 409
  | .invalidTableName | .invalidBody | .dependencyNotFound | .invalidKeyEncoding | .invalidRange
  | .invalidCursor | .invalidPartition | .invalidPartitions | .invalidPath => 400
  | .keyTooLarge | .valueTooLarge => 413
  | .writeStalled | .noLeader | .nodeIncomplete | .nodeAlone => 503
  | .storageError => 500
  | .methodNotAllowed => 405

def errorResponse (code : Code) (message : Bytes) : Response where
  status := errorStatus code
  json := .object [(ascii "error", .object [(ascii "code", .string code.name),
    (ascii "message", .string message)])]

/-- A request that was refused for what it asks. -/
def ErrorMessage.response (refused : ErrorMessage) : Response :=
  errorResponse refused.code refused.message

/-- What a session answers where a route threw. -/
def StorageError.response (thrown : StorageError) : Response :=
  errorResponse thrown.code thrown.what

def jsonResponse (status : ℕ) (json : Json) : Response := { status, json }

def textResponse (status : ℕ) (text : Bytes) : Response := { status, text }

def emptyResponse (status : ℕ) : Response := { status }

/-- `cluster::refusal`: the first answer of a fan out that refused. -/
def refusal (answers : List Response) : Option Response := answers.find? (400 ≤ ·.status)

theorem refusal_eq_none_iff {answers : List Response} :
    refusal answers = none ↔ ∀ answer ∈ answers, answer.status < 400 := by
  simp [refusal, List.find?_eq_none]

end AsyncDatabase
