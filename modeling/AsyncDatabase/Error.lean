import AsyncDatabase.Library.Bytes

/-!
# Errors

The documented error codes and their names on the wire (`error/error_code.cpp`), an error message
(`error/error_message.h`) and the failure a store throws (`repository/storage_error.h`).
-/

namespace AsyncDatabase

open Bytes (ascii)

/-- `error::code`. -/
inductive Code where
  | tableNotFound
  | tableExists
  | invalidTableName
  | invalidBody
  | dependencyNotFound
  | invalidKeyEncoding
  | keyTooLarge
  | valueTooLarge
  | invalidRange
  | invalidCursor
  | invalidPartition
  | invalidPartitions
  | writeStalled
  | noLeader
  | nodeIncomplete
  | nodeAlone
  | staleLeader
  | storageError
  | notFound
  | invalidPath
  | methodNotAllowed
  deriving DecidableEq, Repr

/-- `error::name`. -/
def Code.name : Code → Bytes
  | .tableNotFound => ascii "table_not_found"
  | .tableExists => ascii "table_exists"
  | .invalidTableName => ascii "invalid_table_name"
  | .invalidBody => ascii "invalid_body"
  | .dependencyNotFound => ascii "dependency_not_found"
  | .invalidKeyEncoding => ascii "invalid_key_encoding"
  | .keyTooLarge => ascii "key_too_large"
  | .valueTooLarge => ascii "value_too_large"
  | .invalidRange => ascii "invalid_range"
  | .invalidCursor => ascii "invalid_cursor"
  | .invalidPartition => ascii "invalid_partition"
  | .invalidPartitions => ascii "invalid_partitions"
  | .writeStalled => ascii "write_stalled"
  | .noLeader => ascii "no_leader"
  | .nodeIncomplete => ascii "node_incomplete"
  | .nodeAlone => ascii "node_alone"
  | .staleLeader => ascii "stale_leader"
  | .storageError => ascii "storage_error"
  | .notFound => ascii "not_found"
  | .invalidPath => ascii "invalid_path"
  | .methodNotAllowed => ascii "method_not_allowed"

/-- `error::error_message`: what a refused request is answered with. -/
structure ErrorMessage where
  code : Code
  message : Bytes
  deriving DecidableEq, Repr

/-- `repository::storage_error`: what a call of the store throws. -/
structure StorageError where
  code : Code
  what : Bytes
  deriving DecidableEq, Repr

end AsyncDatabase
