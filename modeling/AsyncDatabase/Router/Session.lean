import AsyncDatabase.Router.Scans

/-!
# What a session hands to the router

The path a target says (`server/session.cpp`), and the record a path names.
-/

namespace AsyncDatabase

open Bytes (ascii)

namespace Session

/-- `has_traversal`: a segment that is entirely two dots. -/
def hasTraversal (target : Bytes) : Bool :=
  (Url.splitPath (target.takeWhile (· ≠ Url.questionMark))).any (· = ascii "..")

/-- The path of a target that is not refused. -/
def routedPath (target : Bytes) : Option (List Bytes) :=
  if target.head? ≠ some Url.slash ∨ hasTraversal target then none
  else some (Url.splitPath target)

theorem hasTraversal_eq (target : Bytes) :
    hasTraversal target = (Url.splitPath target).any (· = ascii "..") := by
  have hcut : (target.takeWhile (· ≠ Url.questionMark)).takeWhile (· ≠ Url.questionMark) =
      target.takeWhile (· ≠ Url.questionMark) := by
    rw [List.takeWhile_takeWhile]
    simp
  rw [hasTraversal, Url.splitPath, Url.splitPath, hcut]

end Session

/-- The table, the partition and the sort of the record that a path names, by the routes of
`routeKeys`. -/
def recordNamed : List Bytes → Option (Bytes × Bytes × Bytes)
  | [table, name, key, partition] =>
    if table = ascii "table" ∧ key = ascii "key" then some (name, partition, []) else none
  | [table, name, key, partition, sort] =>
    if table = ascii "table" ∧ key = ascii "key" then some (name, partition, sort) else none
  | _ => none

/-- A path that names a record is routed to it. -/
theorem Node.routeKeys_of_recordNamed (J : JsonCodec) (w : Seams) {request : Request}
    {name partition sort : Bytes} (h : recordNamed request.path = some (name, partition, sort)) :
    routeKeys J w request = record w request name partition sort := by
  unfold recordNamed at h
  unfold routeKeys
  split at h
  · next table name' key partition' heq =>
    rw [heq]
    split_ifs at h with hboth
    cases h
    dsimp only
    rw [if_neg (by simp [hboth])]
  · next table name' key partition' sort' heq =>
    rw [heq]
    split_ifs at h with hboth
    cases h
    dsimp only
    rw [if_neg (by simp [hboth])]
  · cases h

end AsyncDatabase
