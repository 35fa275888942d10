import AsyncDatabase.Exporting
import AsyncDatabase.PartitionText
import AsyncDatabase.Pieces
import AsyncDatabase.Router.Records
import AsyncDatabase.Library.JsonText
import AsyncDatabase.Library.Run

/-!
# A walk of a share

A node takes a share of a table over a file at a time, in several pieces at once
(`transfer/transfer.cpp`): each request asks for the next file of a piece, the router that is asked
reads the request and writes the file, and the answers go to the threads that take them in.
`walk_delivers_once` says what a walk that answers whole has handed over.
-/

namespace AsyncDatabase

open Bytes (ascii)
open Machine

/-! ### A request for a file -/

/-- `transfer::share`: what a walk asks a node for. -/
structure Share where
  node : Bytes
  table : Bytes
  partitions : PartitionSet
  values : Bool := true
  bytes : ℕ := Store.maxFileBytes

/-- A file on its way, and the key to resume behind it at, where there is one. -/
structure FileAnswer where
  file : List Store.Carried := []
  next : Bytes := []
  deriving DecidableEq

namespace Share

variable (wanted : Share)

/-- The query of a `file_request`. -/
def fileQuery (piece : Piece) (bytes : ℕ) : Bytes :=
  ascii "partitions=" ++ encodePartitions wanted.partitions ++ ascii "&values=" ++
    (if wanted.values then ascii "true" else ascii "false") ++ ascii "&bytes=" ++
      Bytes.decimal bytes ++
    (match piece.after with
      | some key => ascii "&from=" ++ Url.encode (Base64.encode key)
      | none => []) ++
    match piece.upTo with
      | some key => ascii "&to=" ++ Url.encode (Base64.encode key)
      | none => []

def fileRequest (piece : Piece) (bytes : ℕ) : Request where
  method := .get
  path := [ascii "table", wanted.table, ascii "file"]
  query := wanted.fileQuery piece bytes

/-- What a request for a file asks for. -/
def fileShare (piece : Piece) (bytes : ℕ) : Store.FileShare where
  partitions := wanted.partitions
  after := piece.after
  upTo := piece.upTo
  values := wanted.values
  bytes := min bytes Store.maxFileBytes

end Share

namespace Node

/-- A key that a query bounds a file by: none where the parameter is empty. -/
def readKey (query name refusal : Bytes) : Except Response (Option Bytes) :=
  let text := Url.readParameter query name
  if text = [] then .ok none
  else match Base64.decode text with
    | none => .error (errorResponse .invalidCursor refusal)
    | some key => .ok (some key)

/-- The budget of a file: what the query asks for, and no more than a node builds. -/
def readBytes (query : Bytes) : ℕ :=
  match Scan.readSize (Url.readParameter query (ascii "bytes")) with
  | none => Store.maxFileBytes
  | some bytes => if 0 < bytes then min bytes Store.maxFileBytes else Store.maxFileBytes

/-- `route_file`, where the database carries out what it is asked. -/
def routeFile (s : Store) (request : Request) (name : Bytes) : Except Response FileAnswer := do
  if request.method ≠ .get then throw (methodNotAllowed request.method)
  if s.tables.has name = false then throw (tableNotFound name)
  match decodePartitions (Url.readParameter request.query (ascii "partitions")) with
  | none => throw (errorResponse .invalidPartitions
      (ascii "The partitions asked for are not a set of the partitions this cluster has."))
  | some partitions =>
    let values := Url.readParameter request.query (ascii "values") ≠ ascii "false"
    let after ← readKey request.query (ascii "from")
      (ascii "The key to resume the file at is not base64.")
    let upTo ← readKey request.query (ascii "to")
      (ascii "The key to end the file at is not base64.")
    match s.disk.families[name]? with
    | none => throw (StorageError.mk .tableNotFound
        (ascii "No table named \"" ++ name ++ ascii "\".")).response
    | some family =>
      let taken := Store.exportRecords family
        { partitions, after, upTo, values, bytes := readBytes request.query }
      pure { file := taken.file, next := if taken.hasMore then Base64.encode taken.last else [] }

end Node

/-! ### The pieces on their way -/

/-- A piece of a share as a walk reads it, with the files that wait to be taken in. -/
structure Reading extends Piece where
  going : Bool := true
  whole : Bool := false
  refused : Bool := false
  relay : List (List Store.Carried) := []

/-- `carry`: what one answer does to the piece it belongs to. -/
def carry (reading : Reading) (answer : Except Response FileAnswer) : Reading :=
  match answer with
  | .error _ => { reading with going := false, refused := true }
  | .ok answer =>
    let reading := { reading with relay := reading.relay ++ [answer.file] }
    if answer.next = [] then { reading with going := false, whole := true }
    else
      match Base64.decode answer.next with
      | none => { reading with going := false, refused := true }
      | some next =>
        -- a file that ends where the one before it did
        if reading.after = some next then { reading with going := false, refused := true }
        else { reading with after := some next }

/-- A walk: its pieces, whether a file could not be taken in, and the files that were handed
over. -/
structure Transfer (n : ℕ) where
  pieces : Fin n → Reading
  failed : Bool := false
  handed : List (List Store.Carried) := []

/-- What happens in a walk: a round of requests, which finds each piece's source with some store or
refusing, and a taker that takes a file in, or throws. -/
inductive WalkEvent (n : ℕ) where
  | ask (sources : Fin n → Except Response Store)
  | take (piece : Fin n) (throws : Bool)

namespace Transfer

variable (wanted : Share)

/-- The budget of each piece. -/
def budget (n : ℕ) : ℕ := max (wanted.bytes / n) 1

def start (points : List Bytes) : Transfer (piecesOf points).length where
  pieces i := { toPiece := (piecesOf points)[i] }

variable {n : ℕ}

/-- What the source of a piece answers. -/
def answerOf (piece : Piece) (source : Except Response Store) : Except Response FileAnswer :=
  match source with
  | .error refusal => .error refusal
  | .ok s => Node.routeFile s (wanted.fileRequest piece (budget wanted n)) wanted.table

def step (t : Transfer n) : WalkEvent n → Transfer n
  | .ask sources =>
    { t with
      pieces := fun i =>
        if (t.pieces i).going then
          carry (t.pieces i) (answerOf wanted (n := n) (t.pieces i).toPiece (sources i))
        else t.pieces i }
  | .take i throws =>
    match (t.pieces i).relay with
    | [] => t
    | file :: rest =>
      let pieces := Function.update t.pieces i { t.pieces i with relay := rest }
      if t.failed then { t with pieces }
      else { pieces, failed := throws, handed := t.handed ++ [file] }

/-- The takers have taken in what there was. -/
def Joined (t : Transfer n) : Prop := ∀ i, (t.pieces i).relay = []

instance (t : Transfer n) : Decidable t.Joined := inferInstanceAs (Decidable (∀ _, _ = _))

/-- `transfer::outcome`, as the walk says it in the end. -/
def whole (t : Transfer n) : Bool := decide (t.failed = false ∧ ∀ i, (t.pieces i).whole = true)

def refused (t : Transfer n) : Bool := decide (∃ i, (t.pieces i).refused = true)

end Transfer

/-! ### What is asked is what is read -/

namespace Share

variable (wanted : Share)

/-- The names of the parameters of a request for a file. -/
def fileNames : List Bytes :=
  [ascii "partitions", ascii "values", ascii "bytes", ascii "from", ascii "to"]

/-- The parameters of a request for a file. -/
def fileParameters (piece : Piece) (bytes : ℕ) : List (Bytes × Bytes) :=
  [(ascii "partitions", encodePartitions wanted.partitions),
    (ascii "values", if wanted.values then ascii "true" else ascii "false"),
    (ascii "bytes", Bytes.decimal bytes)] ++
    (piece.after.map fun key => (ascii "from", Url.encode (Base64.encode key))).toList ++
    (piece.upTo.map fun key => (ascii "to", Url.encode (Base64.encode key))).toList

theorem fileQuery_eq (piece : Piece) (bytes : ℕ) :
    wanted.fileQuery piece bytes = Url.joinParameters (wanted.fileParameters piece bytes) := by
  have hpartitions : ascii "partitions=" = ascii "partitions" ++ [Url.equalsSign] := by
    decide +kernel
  have hvalues : ascii "&values=" = Url.ampersand :: (ascii "values" ++ [Url.equalsSign]) := by
    decide +kernel
  have hbytes : ascii "&bytes=" = Url.ampersand :: (ascii "bytes" ++ [Url.equalsSign]) := by
    decide +kernel
  have hfrom : ascii "&from=" = Url.ampersand :: (ascii "from" ++ [Url.equalsSign]) := by
    decide +kernel
  have hto : ascii "&to=" = Url.ampersand :: (ascii "to" ++ [Url.equalsSign]) := by decide +kernel
  unfold fileQuery fileParameters Url.joinParameters
  rw [hpartitions, hvalues, hbytes, hfrom, hto]
  cases piece.after <;> cases piece.upTo <;> simp [List.intercalate, List.intersperse]

theorem readParameter_fileQuery (piece : Piece) (bytes : ℕ) (name : Bytes) :
    Url.readParameter (wanted.fileQuery piece bytes) name =
      ((wanted.fileParameters piece bytes).find? (·.1 = name)).elim [] fun parameter =>
        Url.decode parameter.2 := by
  rw [fileQuery_eq]
  have hin : ∀ parameter ∈ wanted.fileParameters piece bytes,
      parameter.1 ∈ fileNames ∧ Url.ampersand ∉ parameter.2 := by
    intro parameter hmem
    rcases List.mem_append.mp hmem with hmem | hmem
    · rcases List.mem_append.mp hmem with hmem | hmem
      · simp only [List.mem_cons, List.not_mem_nil, or_false] at hmem
        rcases hmem with rfl | rfl | rfl
        · refine ⟨by simp [fileNames], fun hin => ?_⟩
          exact absurd (isHex_of_mem_encodePartitions hin) (by decide)
        · refine ⟨by simp [fileNames], ?_⟩
          dsimp only
          split_ifs
          · decide +kernel
          · decide +kernel
        · refine ⟨by simp [fileNames], fun hin => ?_⟩
          exact absurd (Bytes.isDigit_of_mem_decimal hin) (by decide)
      · obtain ⟨key, -, rfl⟩ := Option.map_eq_some_iff.mp (Option.mem_toList.mp hmem)
        exact ⟨by simp [fileNames], Url.ampersand_notMem_encode _⟩
    · obtain ⟨key, -, rfl⟩ := Option.map_eq_some_iff.mp (Option.mem_toList.mp hmem)
      exact ⟨by simp [fileNames], Url.ampersand_notMem_encode _⟩
  refine Url.readParameter_joinParameters (by simp [fileParameters]) (fun parameter hmem => ?_)
    (fun parameter hmem => (hin parameter hmem).2) name
  have hall : ∀ name ∈ fileNames, Url.ampersand ∉ name ∧ Url.equalsSign ∉ name := by decide +kernel
  exact hall _ (hin parameter hmem).1

/-- Of parameters with names of their own each is found by its name. -/
theorem find?_parameters {partitions values bytes after upTo : Bytes}
    (hnames : [partitions, values, bytes, after, upTo].Nodup) (x y z : Bytes)
    (o o' : Option Bytes) : let parameters := [(partitions, x), (values, y), (bytes, z)] ++
      (o.map fun text => (after, text)).toList ++ (o'.map fun text => (upTo, text)).toList
    parameters.find? (·.1 = partitions) = some (partitions, x) ∧
      parameters.find? (·.1 = values) = some (values, y) ∧
      parameters.find? (·.1 = bytes) = some (bytes, z) ∧
      parameters.find? (·.1 = after) = o.map (fun text => (after, text)) ∧
      parameters.find? (·.1 = upTo) = o'.map fun text => (upTo, text) := by
  simp only [List.nodup_cons, List.mem_cons, List.not_mem_nil, or_false, not_or, not_false_eq_true,
    List.nodup_nil, and_true] at hnames
  obtain ⟨⟨h1, h2, h3, h4⟩, ⟨h5, h6, h7⟩, ⟨h8, h9⟩, h10⟩ := hnames
  cases o <;> cases o' <;> simp [h1, h2, h3, h4, h5, h6, h7, h8, h9, h10, Ne.symm]

/-- The parameters of a request, read one by one. -/
theorem readParameters_fileQuery (piece : Piece) (bytes : ℕ) :
    Url.readParameter (wanted.fileQuery piece bytes) (ascii "partitions") =
        encodePartitions wanted.partitions ∧
      (Url.readParameter (wanted.fileQuery piece bytes) (ascii "values") ≠ ascii "false" ↔
        wanted.values = true) ∧
      Url.readParameter (wanted.fileQuery piece bytes) (ascii "bytes") = Bytes.decimal bytes ∧
      Url.readParameter (wanted.fileQuery piece bytes) (ascii "from") =
        piece.after.elim [] Base64.encode ∧
      Url.readParameter (wanted.fileQuery piece bytes) (ascii "to") =
        piece.upTo.elim [] Base64.encode := by
  have hnames : fileNames.Nodup := by decide +kernel
  obtain ⟨hpartitions, hvalues, hbytes, hfrom, hto⟩ := find?_parameters hnames
    (encodePartitions wanted.partitions) (if wanted.values then ascii "true" else ascii "false")
    (Bytes.decimal bytes) (piece.after.map fun key => Url.encode (Base64.encode key))
    (piece.upTo.map fun key => Url.encode (Base64.encode key))
  have hsame : wanted.fileParameters piece bytes =
    [(ascii "partitions", encodePartitions wanted.partitions),
      (ascii "values", if wanted.values then ascii "true" else ascii "false"),
      (ascii "bytes", Bytes.decimal bytes)] ++
      ((piece.after.map fun key => Url.encode (Base64.encode key)).map
        fun text => (ascii "from", text)).toList ++
      ((piece.upTo.map fun key => Url.encode (Base64.encode key)).map
        fun text => (ascii "to", text)).toList := by
    rw [fileParameters, Option.map_map, Option.map_map]
    rfl
  simp only [readParameter_fileQuery, hsame]
  refine ⟨?_, ?_, ?_, ?_, ?_⟩
  · rw [hpartitions]
    refine Url.decode_eq_self fun hin => ?_
    exact absurd (isHex_of_mem_encodePartitions hin) (by decide)
  · rw [hvalues, Option.elim_some]
    dsimp only
    split_ifs with hcarry
    · exact iff_of_true (by decide +kernel) hcarry
    · exact iff_of_false (by decide +kernel) hcarry
  · rw [hbytes]
    refine Url.decode_eq_self fun hin => ?_
    exact absurd (Bytes.isDigit_of_mem_decimal hin) (by decide)
  · rw [hfrom]
    cases piece.after with
    | none => rfl
    | some key => exact Url.decode_encode _
  · rw [hto]
    cases piece.upTo with
    | none => rfl
    | some key => exact Url.decode_encode _

end Share

/-- What has no key is read as none, and a key as that key. -/
theorem Node.readKey_encoded {query name refusal : Bytes} {key : Option Bytes}
    (hkey : key ≠ some []) (hread : Url.readParameter query name = key.elim [] Base64.encode) :
    Node.readKey query name refusal = .ok key := by
  unfold Node.readKey
  rw [hread]
  cases key with
  | none => rfl
  | some key =>
    have hne : Base64.encode key ≠ [] := by
      intro hnil
      have hdecode := Base64.decode_encode key
      rw [hnil] at hdecode
      exact hkey (congrArg some (Option.some.inj hdecode).symm)
    dsimp only [Option.elim_some]
    rw [if_neg hne, Base64.decode_encode]

theorem Node.readBytes_decimal {query : Bytes} {bytes : ℕ} (hbytes : 0 < bytes)
    (hread : Url.readParameter query (ascii "bytes") = Bytes.decimal bytes) :
    Node.readBytes query = min bytes Store.maxFileBytes := by
  have hhead : ∀ sign : UInt8, Bytes.isDigit sign = false →
    (Bytes.decimal bytes).head? ≠ some sign := by
    intro sign hsign hhead
    rw [Bytes.isDigit_of_mem_decimal (List.mem_of_head? hhead)] at hsign
    cases hsign
  have hsize : Scan.readSize (Bytes.decimal bytes) =
      if 2 ^ 64 ≤ bytes then none else some bytes := by
    unfold Scan.readSize
    simp only [hhead 45 rfl, hhead 43 rfl, or_self, if_false, Bytes.readDecimal_decimal]
  unfold Node.readBytes
  rw [hread, hsize]
  split_ifs with hlarge
  · -- a number that does not fit is more than a node builds
    exact (min_eq_right ((by decide : Store.maxFileBytes ≤ 2 ^ 64).trans hlarge)).symm
  · exact if_pos hbytes

theorem Node.routeFile_of_not_has {s : Store} (request : Request) {name : Bytes}
    (hhas : s.tables.has name = false) (hget : request.method = .get) :
    Node.routeFile s request name = .error (Node.tableNotFound name) := by
  unfold Node.routeFile
  simp only [hget, hhas, ne_eq, not_true_eq_false, if_false, if_true]
  rfl

/-- A table whose column family is gone is refused, whatever is asked for of it. -/
theorem Node.routeFile_of_families {s : Store} (request : Request) {name : Bytes}
    (hnone : s.disk.families[name]? = none) :
    ∃ refusal, Node.routeFile s request name = .error refusal := by
  unfold Node.routeFile
  by_cases hget : request.method = .get
  · cases hhas : s.tables.has name with
    | false =>
      simp only [hget, ne_eq, not_true_eq_false, if_false, if_true]
      exact ⟨_, rfl⟩
    | true =>
      simp only [hget, ne_eq, not_true_eq_false, if_false, Bool.true_eq_false]
      cases decodePartitions (Url.readParameter request.query (ascii "partitions")) with
      | none => exact ⟨_, rfl⟩
      | some partitions =>
        cases hfrom : Node.readKey request.query (ascii "from")
            (ascii "The key to resume the file at is not base64.") with
        | error refusal => exact ⟨refusal, rfl⟩
        | ok after =>
          cases hto : Node.readKey request.query (ascii "to")
              (ascii "The key to end the file at is not base64.") with
          | error refusal => exact ⟨refusal, rfl⟩
          | ok upTo =>
            simp only [hnone]
            exact ⟨_, rfl⟩
  · simp only [ne_eq, hget, not_false_eq_true, if_true]
    exact ⟨_, rfl⟩

/-- **What is asked for is what is written.** -/
theorem Node.routeFile_fileRequest {s : Store} {wanted : Share} {piece : Piece} {bytes : ℕ}
    {family : Family} (hhas : s.tables.has wanted.table = true)
    (hfamily : s.disk.families[wanted.table]? = some family) (hafter : piece.after ≠ some [])
    (hupTo : piece.upTo ≠ some []) (hbytes : 0 < bytes) :
    Node.routeFile s (wanted.fileRequest piece bytes) wanted.table =
      .ok { file := (Store.exportRecords family (wanted.fileShare piece bytes)).file,
            next := if (Store.exportRecords family (wanted.fileShare piece bytes)).hasMore then
                Base64.encode (Store.exportRecords family (wanted.fileShare piece bytes)).last
              else [] } := by
  obtain ⟨hpartitions, hvalues, hread, hfrom, hto⟩ := wanted.readParameters_fileQuery piece bytes
  have hwanted : ({ partitions := wanted.partitions
                    after := piece.after
                    upTo := piece.upTo
                    values := decide
                      (Url.readParameter (wanted.fileQuery piece bytes) (ascii "values") ≠
                      ascii "false")
                    bytes := Node.readBytes (wanted.fileQuery piece bytes) } : Store.FileShare) =
      wanted.fileShare piece bytes := by
    have hcarry : decide (Url.readParameter (wanted.fileQuery piece bytes) (ascii "values") ≠
        ascii "false") = wanted.values := by
      rw [Bool.eq_iff_iff, decide_eq_true_iff]
      exact hvalues
    rw [Node.readBytes_decimal hbytes hread, hcarry]
    rfl
  unfold Node.routeFile
  simp only [Share.fileRequest, hhas, hpartitions, decodePartitions_encodePartitions,
    Node.readKey_encoded hafter hfrom, Node.readKey_encoded hupTo hto, hfamily]
  rw [← hwanted]
  rfl

/-! ### One answer -/

namespace Piece

/-- A key is behind the key a piece goes on from. -/
def After (piece : Piece) (key : Bytes) : Prop := ∀ bound, piece.after = some bound → bound < key

theorem after_iff_all {piece : Piece} {key : Bytes} :
    piece.After key ↔ piece.after.all (· < key) = true := by
  rw [Option.all_eq_true]
  simp [After]

instance (piece : Piece) (key : Bytes) : Decidable (piece.After key) :=
  decidable_of_iff _ after_iff_all.symm

theorem has_iff {piece : Piece} {key : Bytes} :
    piece.Has key ↔ piece.After key ∧ piece.upTo.any (· < key) = false := by
  refine and_congr_right fun _ => ?_
  rw [Option.any_eq_false]
  simp [Std.not_lt]

instance (piece : Piece) (key : Bytes) : Decidable (piece.Has key) :=
  decidable_of_iff _ has_iff.symm

theorem admits_fileShare_iff {wanted : Share} {piece : Piece} {bytes : ℕ} {key : Bytes} :
    (wanted.fileShare piece bytes).Admits key ↔ piece.Has key := by
  rw [has_iff, after_iff_all]
  rfl

end Piece

variable {wanted : Share} {n : ℕ}

theorem Transfer.budget_pos : 0 < Transfer.budget wanted n :=
  Nat.lt_of_lt_of_le Nat.one_pos (le_max_right _ _)

theorem Transfer.answerOf_ok (piece : Piece) (s : Store) :
    Transfer.answerOf wanted (n := n) piece (.ok s) =
      Node.routeFile s (wanted.fileRequest piece (Transfer.budget wanted n)) wanted.table := rfl

/-- The next file of a piece. -/
def fileOf (wanted : Share) (n : ℕ) (piece : Piece) (family : Family) : Store.Extract :=
  Store.exportRecords family (wanted.fileShare piece (Transfer.budget wanted n))

/-- What becomes of a piece that was answered with a file. -/
structure Answered (reading : Reading) (taken : Store.Extract) (after : Reading) : Prop where
  relay : after.relay = reading.relay ++ [taken.file]
  upTo : after.upTo = reading.upTo
  ended : taken.hasMore = false →
    after.after = reading.after ∧ after.going = false ∧ after.whole = true
  more : taken.hasMore = true →
    after.after = some taken.last ∧ after.going = reading.going ∧ after.whole = reading.whole

theorem fileShare_bytes_pos (piece : Piece) :
    0 < (wanted.fileShare piece (Transfer.budget wanted n)).bytes :=
  lt_min Transfer.budget_pos (by decide)

/-- A piece goes on from a key of its share that is behind the one it had got to. -/
theorem last_fileOf {piece : Piece} {family : Family}
    (hmore : (fileOf wanted n piece family).hasMore = true) :
    (fileOf wanted n piece family).last ∈ family ∧
      Store.InShare wanted.partitions (fileOf wanted n piece family).last ∧
      piece.Has (fileOf wanted n piece family).last := by
  obtain ⟨hmem, hshare, hadmits⟩ := Store.last_exportRecords (fileShare_bytes_pos piece) hmore
  exact ⟨hmem, hshare, Piece.admits_fileShare_iff.mp hadmits⟩

/-- A file is put with those that wait, and the piece ends with it or goes on. -/
theorem answered_carry {reading : Reading} {taken : Store.Extract}
    (hmore : taken.hasMore = true → taken.last ≠ [] ∧ reading.after ≠ some taken.last) :
    Answered reading taken (carry reading (.ok
      { file := taken.file, next := if taken.hasMore then Base64.encode taken.last else [] })) := by
  obtain ⟨file, last, hasMore⟩ := taken
  cases hasMore with
  | false => exact ⟨rfl, rfl, fun _ => ⟨rfl, rfl, rfl⟩, fun hno => by cases hno⟩
  | true =>
    obtain ⟨hlast, hahead⟩ := hmore rfl
    have hne : Base64.encode last ≠ [] := by
      intro hnil
      have hdecode := Base64.decode_encode last
      rw [hnil] at hdecode
      exact hlast (Option.some.inj hdecode).symm
    have hcarry :
      carry reading (.ok { file, next := if true = true then Base64.encode last else [] }) =
        { reading with relay := reading.relay ++ [file], after := some last } := by
      unfold carry
      dsimp only
      rw [if_pos rfl, if_neg hne, Base64.decode_encode]
      exact if_neg hahead
    rw [hcarry]
    exact ⟨rfl, rfl, fun hno => absurd hno Bool.noConfusion, fun _ => ⟨rfl, rfl, rfl⟩⟩

theorem answered_fileOf (reading : Reading) (family : Family) :
    Answered reading (fileOf wanted n reading.toPiece family) (carry reading (.ok
      { file := (fileOf wanted n reading.toPiece family).file
        next := if (fileOf wanted n reading.toPiece family).hasMore then
          Base64.encode (fileOf wanted n reading.toPiece family).last else [] })) := by
  refine answered_carry fun hmore => ?_
  obtain ⟨-, ⟨partition, -, hrange⟩, hhas⟩ := last_fileOf hmore
  exact ⟨hrange.ne_nil, fun hsame => Std.lt_irrefl (hhas.1 _ hsame)⟩

/-- An answer is a refusal, which ends the piece, or a file of the share behind where it had got
to. -/
theorem carry_cases {reading : Reading} (hafter : reading.after ≠ some [])
    (hupTo : reading.upTo ≠ some []) (source : Except Response Store) :
    (carry reading (Transfer.answerOf wanted (n := n) reading.toPiece source) =
        { reading with going := false, refused := true } ∧
      ∀ s, source = .ok s → ¬(s.tables.has wanted.table = true ∧ wanted.table ∈ s.disk.families)) ∨
    ∃ s family, source = .ok s ∧ s.disk.families[wanted.table]? = some family ∧
      Answered reading (fileOf wanted n reading.toPiece family)
        (carry reading (Transfer.answerOf wanted (n := n) reading.toPiece source)) := by
  cases source with
  | error refusal => exact Or.inl ⟨rfl, fun s hs => by cases hs⟩
  | ok s =>
    by_cases hhas : s.tables.has wanted.table = true
    · cases hfamily : s.disk.families[wanted.table]? with
      | none =>
        obtain ⟨refusal, hrefusal⟩ := Node.routeFile_of_families
          (wanted.fileRequest reading.toPiece (Transfer.budget wanted n)) hfamily
        refine Or.inl ⟨by rw [Transfer.answerOf_ok, hrefusal]; rfl, fun other hother hboth => ?_⟩
        obtain rfl := Except.ok.inj hother
        rw [← Std.ExtTreeMap.isSome_getElem?_iff_mem, hfamily] at hboth
        exact Bool.false_ne_true hboth.2
      | some family =>
        refine Or.inr ⟨s, family, rfl, hfamily, ?_⟩
        rw [Transfer.answerOf_ok,
          Node.routeFile_fileRequest hhas hfamily hafter hupTo Transfer.budget_pos]
        exact answered_fileOf reading family
    · have hrefusal := Node.routeFile_of_not_has
        (wanted.fileRequest reading.toPiece (Transfer.budget wanted n)) (by simpa using hhas)
      refine Or.inl ⟨by rw [Transfer.answerOf_ok, hrefusal rfl]; rfl, fun other hother hboth => ?_⟩
      obtain rfl := Except.ok.inj hother
      exact hhas hboth.1

/-! ### What a piece has given -/

/-- How often files have a record of a key. -/
def entriesOf (key : Bytes) (files : List (List Store.Carried)) : ℕ :=
  files.flatten.countP (·.1 = key)

theorem entriesOf_append (key : Bytes) (files more : List (List Store.Carried)) :
    entriesOf key (files ++ more) = entriesOf key files + entriesOf key more := by
  rw [entriesOf, List.flatten_append, List.countP_append]
  rfl

theorem entriesOf_cons (key : Bytes) (file : List Store.Carried)
    (files : List (List Store.Carried)) :
    entriesOf key (file :: files) = entriesOf key [file] + entriesOf key files :=
  entriesOf_append key [file] files

/-- A piece whose reading has got past a key, or to its end, owes its record of that key. -/
def owes (piece : Piece) (reading : Reading) (key : Bytes) : ℕ :=
  if piece.Has key ∧ (reading.whole = true ∨ ¬reading.toPiece.After key) then 1 else 0

/-- What is known of the reading of a piece. -/
structure Reads (wanted : Share) (piece : Piece) (reading : Reading) : Prop where
  upTo : reading.upTo = piece.upTo
  /-- What it goes on from is no earlier than where the piece starts. -/
  after : ∀ key, reading.toPiece.After key → piece.After key
  after_ne : reading.after ≠ some []
  upTo_ne : reading.upTo ≠ some []
  ended : reading.whole = true → reading.going = false
  relay : ∀ file ∈ reading.relay, ∀ held ∈ file, Store.InShare wanted.partitions held.1

theorem mem_fileOf_iff {piece : Piece} {family : Family} {key stored : Bytes} :
    (key, stored) ∈ (fileOf wanted n piece family).file ↔
      ∃ value, family[key]? = some value ∧
        (wanted.fileShare piece (Transfer.budget wanted n)).carried (key, value) = (key, stored) ∧
        Store.InShare wanted.partitions key ∧ piece.Has key ∧
        ((fileOf wanted n piece family).hasMore = true →
          ¬(fileOf wanted n piece family).last < key) := by
  rw [fileOf, Store.mem_exportRecords_iff (fileShare_bytes_pos piece)]
  simp only [Piece.admits_fileShare_iff]
  rfl

variable {piece : Piece} {reading after : Reading} {family : Family}

/-- **One answer keeps what is known of a piece.** -/
theorem Reads.answered (h : Reads wanted piece reading)
    (ha : Answered reading (fileOf wanted n reading.toPiece family) after) :
    Reads wanted piece after := by
  have hrelay : ∀ file ∈ after.relay, ∀ held ∈ file, Store.InShare wanted.partitions held.1 := by
    intro file hfile held hheld
    rw [ha.relay] at hfile
    rcases List.mem_append.mp hfile with hold | hnew
    · exact h.relay file hold held hheld
    · rw [List.mem_singleton.mp hnew] at hheld
      obtain ⟨_, -, -, hshare, -⟩ := mem_fileOf_iff.mp (show (held.1, held.2) ∈ _ from hheld)
      exact hshare
  have hupTo : after.upTo = piece.upTo := ha.upTo.trans h.upTo
  have hupTo_ne : after.upTo ≠ some [] := by
    rw [ha.upTo]
    exact h.upTo_ne
  cases hmore : (fileOf wanted n reading.toPiece family).hasMore with
  | false =>
    obtain ⟨hafter, hgoing, -⟩ := ha.ended hmore
    refine ⟨hupTo, fun key hkey => h.after key ?_, ?_, hupTo_ne, fun _ => hgoing, hrelay⟩
    · rwa [Piece.After, ← hafter]
    · rw [hafter]
      exact h.after_ne
  | true =>
    obtain ⟨hafter, hgoing, hwhole⟩ := ha.more hmore
    obtain ⟨-, ⟨partition, -, hrange⟩, hhas⟩ := last_fileOf hmore
    refine ⟨hupTo, fun key hkey => h.after key fun bound hbound => ?_, ?_, hupTo_ne,
      fun hyes => ?_, hrelay⟩
    · exact List.lt_trans (hhas.1 bound hbound) (hkey _ hafter)
    · rw [hafter]
      exact fun hnil => hrange.ne_nil (Option.some.inj hnil)
    · rw [hgoing]
      exact h.ended (hwhole ▸ hyes)

theorem Reads.refused (h : Reads wanted piece reading) :
    Reads wanted piece { reading with going := false, refused := true } :=
  ⟨h.upTo, h.after, h.after_ne, h.upTo_ne, fun _ => rfl, h.relay⟩

/-- A file has the record of a key of its piece once, where it gets as far as that. -/
theorem entriesOf_fileOf {key value : Bytes} (hshare : Store.InShare wanted.partitions key)
    (hvalue : family[key]? = some value) :
    entriesOf key [(fileOf wanted n piece family).file] =
      if piece.Has key ∧ ((fileOf wanted n piece family).hasMore = true →
        ¬(fileOf wanted n piece family).last < key) then 1 else 0 := by
  have hsorted : (fileOf wanted n piece family).file.Pairwise fun a b => a.1 < b.1 :=
    Store.sorted_exportRecords (fileShare_bytes_pos piece)
  have hnodup : ((fileOf wanted n piece family).file.map Prod.fst).Nodup := by
    refine List.pairwise_map.mpr (hsorted.imp fun {a b} hlt heq => ?_)
    rw [heq] at hlt
    exact Std.lt_irrefl hlt
  have hcount : entriesOf key [(fileOf wanted n piece family).file] =
      ((fileOf wanted n piece family).file.map Prod.fst).count key := by
    rw [entriesOf, List.flatten_singleton, List.count, List.countP_map]
    refine List.countP_congr fun held _ => ?_
    simp
  rw [hcount, List.Nodup.count hnodup]
  refine if_congr ?_ rfl rfl
  rw [List.mem_map]
  constructor
  · rintro ⟨held, hmem, rfl⟩
    obtain ⟨-, -, -, -, hhas, hlast⟩ := mem_fileOf_iff.mp (show (held.1, held.2) ∈ _ from hmem)
    exact ⟨hhas, hlast⟩
  · rintro ⟨hhas, hlast⟩
    exact ⟨_, mem_fileOf_iff.mpr ⟨value, hvalue, rfl, hshare, hhas, hlast⟩, rfl⟩

/-- **One answer gives what the piece then owes**: of a key that the table has all the while,
once. -/
theorem owes_answered {key value : Bytes} (h : Reads wanted piece reading)
    (hgoing : reading.going = true) (hshare : Store.InShare wanted.partitions key)
    (hvalue : family[key]? = some value)
    (ha : Answered reading (fileOf wanted n reading.toPiece family) after) :
    entriesOf key after.relay + owes piece reading key =
      owes piece after key + entriesOf key reading.relay := by
  have hunfinished : reading.whole = false := by
    cases hwhole : reading.whole with
    | false => rfl
    | true => exact absurd (hgoing.symm.trans (h.ended hwhole)) (by decide)
  have hpiece : reading.toPiece.Has key ↔ reading.toPiece.After key ∧ piece.Has key := by
    unfold Piece.Has
    rw [h.upTo]
    exact ⟨fun hhas => ⟨hhas.1, h.after key hhas.1, hhas.2⟩, fun hboth => ⟨hboth.1, hboth.2.2⟩⟩
  rw [ha.relay, entriesOf_append, entriesOf_fileOf hshare hvalue]
  unfold owes
  simp only [hpiece, hunfinished, Bool.false_eq_true, false_or]
  cases hmore : (fileOf wanted n reading.toPiece family).hasMore with
  | false =>
    obtain ⟨-, -, hwhole⟩ := ha.ended hmore
    simp only [hwhole, Bool.false_eq_true, false_imp_iff, true_or, and_true]
    by_cases hhas : piece.Has key <;> by_cases hafter : reading.toPiece.After key <;>
      simp [hhas, hafter, Nat.add_comm]
  | true =>
    obtain ⟨hafter, -, hwhole⟩ := ha.more hmore
    obtain ⟨-, -, hlast⟩ := last_fileOf hmore
    have hnow : after.toPiece.After key ↔ (fileOf wanted n reading.toPiece family).last < key := by
      unfold Piece.After
      simp [hafter]
    -- what is behind the new place is behind the old one
    have hmono : (fileOf wanted n reading.toPiece family).last < key → reading.toPiece.After key :=
      fun hlt bound hbound => List.lt_trans (hlast.1 bound hbound) hlt
    simp only [hwhole, hunfinished, hnow, Bool.false_eq_true, false_or, true_imp_iff]
    by_cases hhas : piece.Has key
    · by_cases hbehind : (fileOf wanted n reading.toPiece family).last < key
      · simp [hhas, hbehind, hmono hbehind]
      · by_cases hold : reading.toPiece.After key <;> simp [hhas, hbehind, hold, Nat.add_comm]
    · simp [hhas]

/-! ### A whole walk -/

/-- What a walk hands over of a record: its value, or the version alone. -/
def Share.carried (wanted : Share) (held : Store.Carried) : Store.Carried :=
  (held.1, if wanted.values then held.2 else held.2.take Record.versionSize)

/-- The table of a source has a record, whenever the source answers. -/
def WalkEvent.Keeps (wanted : Share) (key value : Bytes) : WalkEvent n → Prop
  | .ask sources => ∀ i s, sources i = .ok s →
      (s.disk.families[wanted.table]?).bind (·[key]?) = some value
  | .take _ _ => True

namespace Transfer

/-- What is known of a walk between two events. -/
structure Sound (wanted : Share) (pieces : Fin n → Piece) (t : Transfer n) : Prop where
  reads : ∀ i, Reads wanted (pieces i) (t.pieces i)
  handed : ∀ file ∈ t.handed, ∀ held ∈ file, Store.InShare wanted.partitions held.1

/-- What is known of a record that the table has all the while: where nothing failed, the files that
were handed over or wait have it as often as the pieces owe it, which is as it is carried. -/
structure Owed (wanted : Share) (pieces : Fin n → Piece) (key value : Bytes) (t : Transfer n) :
    Prop where
  relay : ∀ i, ∀ file ∈ (t.pieces i).relay, ∀ held ∈ file, held.1 = key →
    held = wanted.carried (key, value)
  handed : ∀ file ∈ t.handed, ∀ held ∈ file, held.1 = key → held = wanted.carried (key, value)
  owed : t.failed = false → entriesOf key t.handed + ∑ i, entriesOf key (t.pieces i).relay =
    ∑ i, owes (pieces i) (t.pieces i) key

variable {pieces : Fin n → Piece} {t : Transfer n}

/-- A piece that is asked for is as it was, was refused, or was answered with a file. -/
theorem asked_cases (h : t.Sound wanted pieces)
    (sources : Fin n → Except Response Store) (i : Fin n) :
    ((t.step wanted (.ask sources)).pieces i = t.pieces i ∧ (t.pieces i).going = false) ∨
    (t.pieces i).going = true ∧
      (((t.step wanted (.ask sources)).pieces i =
          { t.pieces i with going := false, refused := true } ∧
        ∀ s, sources i = .ok s →
          ¬(s.tables.has wanted.table = true ∧ wanted.table ∈ s.disk.families)) ∨
      ∃ s family, sources i = .ok s ∧ s.disk.families[wanted.table]? = some family ∧
        Answered (t.pieces i) (fileOf wanted n (t.pieces i).toPiece family)
          ((t.step wanted (.ask sources)).pieces i)) := by
  change ((if (t.pieces i).going = true then _ else _) = t.pieces i ∧ _) ∨ _
  by_cases hgoing : (t.pieces i).going = true
  · have hstep : (t.step wanted (.ask sources)).pieces i =
        carry (t.pieces i) (answerOf wanted (n := n) (t.pieces i).toPiece (sources i)) :=
          if_pos hgoing
    rw [hstep]
    exact Or.inr ⟨hgoing, carry_cases (h.reads i).after_ne (h.reads i).upTo_ne (sources i)⟩
  · exact Or.inl ⟨if_neg hgoing, Bool.eq_false_iff.mpr hgoing⟩

/-- What is taken in waited, and is handed over unless a file before it could not be. -/
theorem take_cases (t : Transfer n) (i : Fin n) (throws : Bool) :
    t.step wanted (.take i throws) = t ∨
    ∃ file rest, (t.pieces i).relay = file :: rest ∧
      (t.step wanted (.take i throws)).pieces =
        Function.update t.pieces i { t.pieces i with relay := rest } ∧
      ((t.failed = true ∧ (t.step wanted (.take i throws)).failed = true ∧
          (t.step wanted (.take i throws)).handed = t.handed) ∨
        t.failed = false ∧ (t.step wanted (.take i throws)).failed = throws ∧
          (t.step wanted (.take i throws)).handed = t.handed ++ [file]) := by
  unfold step
  cases hrelay : (t.pieces i).relay with
  | nil =>
    dsimp only
    rw [hrelay]
    exact Or.inl rfl
  | cons file rest =>
    refine Or.inr ⟨file, rest, rfl, ?_⟩
    dsimp only
    rw [hrelay]
    cases hfailed : t.failed with
    | true => exact ⟨rfl, Or.inl ⟨rfl, rfl, rfl⟩⟩
    | false => exact ⟨rfl, Or.inr ⟨rfl, rfl, rfl⟩⟩

theorem Sound.step (h : t.Sound wanted pieces) (e : WalkEvent n) :
    (t.step wanted e).Sound wanted pieces := by
  cases e with
  | ask sources =>
    refine ⟨fun i => ?_, h.handed⟩
    rcases asked_cases h sources i with ⟨hsame, -⟩ | ⟨-, ⟨hrefused, -⟩ | ⟨s, family, -, -, ha⟩⟩
    · rw [hsame]
      exact h.reads i
    · rw [hrefused]
      exact (h.reads i).refused
    · exact (h.reads i).answered ha
  | take i throws =>
    rcases take_cases t i throws with hsame | ⟨file, rest, hrelay, hpieces, hhanded⟩
    · rw [hsame]
      exact h
    · refine ⟨fun j => ?_, fun other hother => ?_⟩
      · rw [hpieces]
        by_cases hj : j = i
        · subst hj
          rw [Function.update_self]
          have hr := h.reads j
          exact ⟨hr.upTo, hr.after, hr.after_ne, hr.upTo_ne, hr.ended, fun file hfile =>
            hr.relay file (hrelay ▸ List.mem_cons_of_mem _ hfile)⟩
        · rw [Function.update_of_ne hj]
          exact h.reads j
      · rcases hhanded with ⟨-, -, hsame⟩ | ⟨-, -, hmore⟩
        · rw [hsame] at hother
          exact h.handed other hother
        · rw [hmore] at hother
          rcases List.mem_append.mp hother with hold | hnew
          · exact h.handed other hold
          · rw [List.mem_singleton.mp hnew]
            exact (h.reads i).relay file (hrelay ▸ List.mem_cons_self)

/-- What an answer adds to a relay is what its piece then no longer owes, and is the record as the
table has it. -/
theorem Owed.asked {key value : Bytes} (hsound : t.Sound wanted pieces)
    (h : t.Owed wanted pieces key value) (hshare : Store.InShare wanted.partitions key)
    {sources : Fin n → Except Response Store}
    (he : (WalkEvent.ask sources).Keeps wanted key value) (i : Fin n) :
    (∀ file ∈ ((t.step wanted (.ask sources)).pieces i).relay, ∀ held ∈ file,
        held.1 = key → held = wanted.carried (key, value)) ∧
      entriesOf key ((t.step wanted (.ask sources)).pieces i).relay +
          owes (pieces i) (t.pieces i) key =
        owes (pieces i) ((t.step wanted (.ask sources)).pieces i) key +
          entriesOf key (t.pieces i).relay := by
  rcases asked_cases hsound sources i with
    ⟨hsame, -⟩ | ⟨hgoing, ⟨hrefused, -⟩ | ⟨s, family, hsource, hfamily, ha⟩⟩
  · rw [hsame]
    exact ⟨h.relay i, Nat.add_comm _ _⟩
  · rw [hrefused]
    exact ⟨h.relay i, Nat.add_comm _ _⟩
  · have hvalue : family[key]? = some value := by
      have hkeeps := he i s hsource
      rwa [hfamily, Option.bind_some] at hkeeps
    refine ⟨fun file hfile held hheld hkey =>
      ?_, owes_answered (hsound.reads i) hgoing hshare hvalue ha⟩
    rw [ha.relay] at hfile
    rcases List.mem_append.mp hfile with hold | hnew
    · exact h.relay i file hold held hheld hkey
    · rw [List.mem_singleton.mp hnew] at hheld
      obtain ⟨other, hother, hcarried, -⟩ :=
        mem_fileOf_iff.mp (show (held.1, held.2) ∈ _ from hheld)
      rw [hkey, hvalue] at hother
      rw [hkey, ← Option.some.inj hother] at hcarried
      exact (Prod.ext hkey (congrArg Prod.snd hcarried).symm : held = _)

/-- A file that is taken in leaves its relay, and no piece owes more for it. -/
theorem Owed.taken {key value : Bytes} (h : t.Owed wanted pieces key value) (i : Fin n)
    (throws : Bool) : (t.step wanted (.take i throws)).Owed wanted pieces key value := by
  rcases take_cases t i throws with hsame | ⟨file, rest, hrelay, hpieces, hhanded⟩
  · rw [hsame]
    exact h
  -- what was taken in waited
  have hfile : ∀ held ∈ file, held.1 = key → held = wanted.carried (key, value) :=
    h.relay i file (hrelay ▸ List.mem_cons_self)
  have howes : ∀ j, owes (pieces j) ((t.step wanted (.take i throws)).pieces j) key =
      owes (pieces j) (t.pieces j) key := by
    intro j
    rw [hpieces]
    by_cases hj : j = i
    · subst hj
      rw [Function.update_self]
      rfl
    · rw [Function.update_of_ne hj]
  have hentries : ∑ j, entriesOf key (t.pieces j).relay = entriesOf key [file] +
      ∑ j, entriesOf key ((t.step wanted (.take i throws)).pieces j).relay := by
    rw [← Finset.add_sum_erase _ _ (Finset.mem_univ i), ← Finset.add_sum_erase _
      _ (Finset.mem_univ i), hpieces, Function.update_self, hrelay, entriesOf_cons, Nat.add_assoc]
    refine congrArg _ (congrArg _ (Finset.sum_congr rfl fun j hj => ?_))
    rw [Function.update_of_ne (Finset.ne_of_mem_erase hj)]
  refine ⟨fun j other hother => ?_, fun other hother => ?_, fun hfailed => ?_⟩
  · rw [hpieces] at hother
    by_cases hj : j = i
    · subst hj
      rw [Function.update_self] at hother
      exact h.relay j other (hrelay ▸ List.mem_cons_of_mem _ hother)
    · rw [Function.update_of_ne hj] at hother
      exact h.relay j other hother
  · rcases hhanded with ⟨-, -, hsame⟩ | ⟨-, -, hmore⟩
    · rw [hsame] at hother
      exact h.handed other hother
    · rw [hmore] at hother
      rcases List.mem_append.mp hother with hold | hnew
      · exact h.handed other hold
      · rw [List.mem_singleton.mp hnew]
        exact hfile
  · rcases hhanded with ⟨-, hyes, -⟩ | ⟨hno, -, hmore⟩
    · exact absurd (hyes.symm.trans hfailed) (by decide)
    · have howed := h.owed hno
      rw [hentries] at howed
      rw [hmore, entriesOf_append, Finset.sum_congr rfl fun j _ => howes j]
      omega

/-- **What every event keeps of a record that stays in the table.** -/
theorem Owed.step {key value : Bytes} (hsound : t.Sound wanted pieces)
    (h : t.Owed wanted pieces key value)
    (hshare : Store.InShare wanted.partitions key) {e : WalkEvent n}
    (he : e.Keeps wanted key value) : (t.step wanted e).Owed wanted pieces key value := by
  cases e with
  | ask sources =>
    have hpiece := h.asked hsound hshare he
    refine ⟨fun i => (hpiece i).1, h.handed, fun hfailed => ?_⟩
    -- what the relays have gained in all is what is no longer owed
    have hsum : ∑ i, entriesOf key ((t.step wanted (.ask sources)).pieces i).relay +
          ∑ i, owes (pieces i) (t.pieces i) key =
        ∑ i, owes (pieces i) ((t.step wanted (.ask sources)).pieces i) key +
          ∑ i, entriesOf key (t.pieces i).relay := by
      rw [← Finset.sum_add_distrib, ← Finset.sum_add_distrib]
      exact Finset.sum_congr rfl fun i _ => (hpiece i).2
    have howed := h.owed hfailed
    change entriesOf key t.handed + _ = _
    omega
  | take i throws => exact h.taken i throws

/-- The pieces a walk starts from. -/
def piecesAt (points : List Bytes) (i : Fin (piecesOf points).length) : Piece :=
  (piecesOf points)[i]

theorem mem_points_of_mem_piecesOf {points : List Bytes} {piece : Piece}
    (h : piece ∈ piecesOf points)
    {key : Bytes} :
    (piece.after = some key → key ∈ points) ∧ (piece.upTo = some key → key ∈ points) := by
  obtain ⟨i, -, rfl⟩ := List.mem_map.mp h
  refine ⟨fun hafter => ?_, fun hupTo => List.mem_of_getElem? hupTo⟩
  dsimp only at hafter
  split_ifs at hafter
  exact List.mem_of_getElem? hafter

variable {points : List Bytes}

theorem sound_start (hnonempty : [] ∉ points) : (start points).Sound wanted (piecesAt points) where
  reads i := by
    have hmem : piecesAt points i ∈ piecesOf points := List.getElem_mem _
    exact ⟨rfl, fun _ h => h, fun h => hnonempty ((mem_points_of_mem_piecesOf hmem).1 h),
      fun h => hnonempty ((mem_points_of_mem_piecesOf hmem).2 h), fun hno => Bool.noConfusion hno,
      fun _ hfile => absurd hfile List.not_mem_nil⟩
  handed _ hfile := absurd hfile List.not_mem_nil

theorem owed_start (key value : Bytes) :
    (start points).Owed wanted (piecesAt points) key value where
  relay _ _ hfile := absurd hfile List.not_mem_nil
  handed _ hfile := absurd hfile List.not_mem_nil
  owed _ := by
    have hnone : ∀ i, owes (piecesAt points i) ((start points).pieces i) key = 0 := by
      intro i
      refine if_neg ?_
      rintro ⟨hhas, hno | hbehind⟩
      · cases hno
      · exact hbehind hhas.1
    have hempty : ∑ i, entriesOf key ((start points).pieces i).relay = 0 :=
      Finset.sum_eq_zero fun i _ => rfl
    have hhanded : entriesOf key (start points).handed = 0 := rfl
    rw [Finset.sum_eq_zero fun i _ => hnone i, hempty, hhanded, Nat.add_zero]

/-- A walk that is whole owes every key once, the keys being cut up among its pieces. -/
theorem sum_owes_of_whole (hascend : points.Pairwise (· < ·))
    {t : Transfer (piecesOf points).length}
    (hwhole : ∀ i, (t.pieces i).whole = true) (key : Bytes) :
    ∑ i, owes (piecesAt points i) (t.pieces i) key = 1 := by
  obtain ⟨i, ⟨piece, hpiece, hhas⟩, honly⟩ := piecesOf_cover hascend key
  obtain ⟨hlt, hget⟩ := List.getElem?_eq_some_iff.mp hpiece
  have hone : owes (piecesAt points ⟨i, hlt⟩) (t.pieces ⟨i, hlt⟩) key = 1 := by
    refine if_pos ⟨?_, Or.inl (hwhole _)⟩
    change ((piecesOf points)[i]).Has key
    rw [hget]
    exact hhas
  rw [Finset.sum_eq_single ⟨i, hlt⟩, hone]
  · intro other _ hother
    refine if_neg fun hboth => hother (Fin.ext (honly other ?_))
    exact ⟨piecesAt points other, List.getElem?_eq_getElem other.isLt, hboth.1⟩
  · exact fun hno => absurd (Finset.mem_univ _) hno

/-- What a taker threw on failed the walk for good. -/
theorem failed_step {e : WalkEvent n} (h : t.failed = true) : (t.step wanted e).failed = true := by
  cases e with
  | ask sources => exact h
  | take i throws =>
    rcases take_cases t i throws with hsame | ⟨file, rest, -, -, ⟨-, hyes, -⟩ | ⟨hno, -, -⟩⟩
    · rw [hsame]
      exact h
    · exact hyes
    · exact absurd (hno.symm.trans h) (by decide)

/-! ### A walk gets on -/

/-- How many of these records a piece has got past. -/
def passed (piece : Piece) (records : List Store.Carried) : ℕ :=
  records.countP fun held => !decide (piece.After held.1)

/-- **A piece that is answered and goes on has got past a record more.** -/
theorem passed_answered {reading after : Reading} {family : Family}
    (ha : Answered reading (fileOf wanted n reading.toPiece family) after)
    (hmore : (fileOf wanted n reading.toPiece family).hasMore = true) :
    passed reading.toPiece family.toList < passed after.toPiece family.toList := by
  obtain ⟨hafter, -, -⟩ := ha.more hmore
  obtain ⟨hmem, -, hhas⟩ := last_fileOf hmore
  have hnow : ∀ key, after.toPiece.After key ↔
    (fileOf wanted n reading.toPiece family).last < key := by
    intro key
    unfold Piece.After
    simp [hafter]
  have hle : ∀ records, passed reading.toPiece records ≤ passed after.toPiece records := by
    refine fun records => List.countP_mono_left fun held _ hbehind => ?_
    rw [Bool.not_eq_true', decide_eq_false_iff_not] at hbehind ⊢
    exact fun hlt => hbehind fun bound hbound =>
      List.lt_trans (hhas.1 bound hbound) ((hnow _).mp hlt)
  obtain ⟨value, hvalue⟩ :=
    Option.isSome_iff_exists.mp (Std.ExtTreeMap.isSome_getElem?_iff_mem.mpr hmem)
  obtain ⟨before, rest, hsplit⟩ :=
    List.append_of_mem (Std.ExtTreeMap.mem_toList_iff_getElem?_eq_some.mpr hvalue)
  have hcons : ∀ piece : Piece, passed piece family.toList =
    passed piece before + (passed piece rest +
      if !decide (piece.After (fileOf wanted n reading.toPiece family).last) then 1 else 0) := by
    intro piece
    unfold passed
    rw [hsplit, List.countP_append, List.countP_cons]
  have hold : reading.toPiece.After (fileOf wanted n reading.toPiece family).last := hhas.1
  have hnew : ¬after.toPiece.After (fileOf wanted n reading.toPiece family).last := fun h =>
    Std.lt_irrefl ((hnow _).mp h)
  have hbefore := hle before
  have hrest := hle rest
  rw [hcons, hcons]
  simp only [hold, hnew, decide_true, decide_false, Bool.not_true,
    Bool.not_false, Bool.false_eq_true, if_false, if_true]
  omega

/-- How many rounds of requests there are. -/
def rounds (es : List (WalkEvent n)) : ℕ :=
  es.countP fun e => match e with
    | .ask _ => true
    | .take _ _ => false

/-- After so many rounds with a source that answers, a piece is whole, or has got past as many
records. -/
def Advanced (family : Family) (k : ℕ) (t : Transfer n) : Prop :=
  ∀ i, (t.pieces i).going = false ∧ (t.pieces i).whole = true ∨
    (t.pieces i).going = true ∧ k ≤ passed (t.pieces i).toPiece family.toList

theorem advanced_ask {family : Family} {k : ℕ} {s : Store} (hsound : t.Sound wanted pieces)
    (hhas : s.tables.has wanted.table = true)
    (hfamily : s.disk.families[wanted.table]? = some family)
    (h : t.Advanced family k) {sources : Fin n → Except Response Store}
    (hsources : ∀ i, sources i = .ok s) :
    (t.step wanted (.ask sources)).Advanced family (k + 1) := by
  intro i
  rcases asked_cases hsound sources i with
    ⟨hsame, hstopped⟩ | ⟨hgoing, ⟨-, hrefused⟩ | ⟨s', family', hsource, hfamily', ha⟩⟩
  · rcases h i with hended | ⟨hyes, -⟩
    · rw [hsame]
      exact Or.inl hended
    · exact absurd (hstopped.symm.trans hyes) (by decide)
  · refine absurd ⟨hhas, ?_⟩ (hrefused s (hsources i))
    rw [← Std.ExtTreeMap.isSome_getElem?_iff_mem, hfamily]
    rfl
  · obtain rfl := Except.ok.inj ((hsources i).symm.trans hsource)
    obtain rfl := Option.some.inj (hfamily.symm.trans hfamily')
    cases hmore : (fileOf wanted n (t.pieces i).toPiece family).hasMore with
    | false =>
      obtain ⟨-, hended, hwhole⟩ := ha.ended hmore
      exact Or.inl ⟨hended, hwhole⟩
    | true =>
      obtain ⟨-, hsame, -⟩ := ha.more hmore
      have hless := passed_answered ha hmore
      rcases h i with ⟨hstopped, -⟩ | ⟨-, hpassed⟩
      · exact absurd (hstopped.symm.trans hgoing) (by decide)
      · exact Or.inr ⟨hsame.trans hgoing, Nat.succ_le_of_lt (hpassed.trans_lt hless)⟩

theorem advanced_take {family : Family} {k : ℕ} (h : t.Advanced family k)
    (i : Fin n) (throws : Bool) : (t.step wanted (.take i throws)).Advanced family k := by
  rcases @take_cases wanted n t i throws with hsame | ⟨file, rest, -, hpieces, -⟩
  · rw [hsame]
    exact h
  · intro j
    rw [hpieces]
    by_cases hj : j = i
    · subst hj
      rw [Function.update_self]
      exact h j
    · rw [Function.update_of_ne hj]
      exact h j

/-- The source of every piece is this store, which nothing is written to. -/
def Steady (s : Store) : WalkEvent n → Prop
  | .ask sources => ∀ i, sources i = .ok s
  | .take _ _ => True

theorem advanced_run {family : Family} {s : Store} (hhas : s.tables.has wanted.table = true)
    (hfamily : s.disk.families[wanted.table]? = some family) {es : List (WalkEvent n)}
    (hsteady : ∀ e ∈ es, Steady s e) {k : ℕ} (hsound : t.Sound wanted pieces)
    (h : t.Advanced family k) : (run (step wanted) t es).Advanced family (k + rounds es) := by
  induction es generalizing t k with
  | nil => exact h
  | cons e es ih =>
    have hrest := fun other hother => hsteady other (List.mem_cons_of_mem e hother)
    cases e with
    | ask sources =>
      have hsources : ∀ i, sources i = .ok s := hsteady _ List.mem_cons_self
      have hnext := ih hrest (hsound.step _) (advanced_ask hsound hhas hfamily h hsources)
      rw [run_cons]
      have hrounds : k + rounds (.ask sources :: es) = k + 1 + rounds es := by
        rw [rounds, List.countP_cons_of_pos rfl, Nat.add_assoc, Nat.add_comm 1]
        rfl
      rwa [hrounds]
    | take i throws =>
      have hnext := ih hrest (hsound.step _) (advanced_take h i throws)
      rw [run_cons]
      have hrounds : k + rounds (.take i throws :: es) = k + rounds es := by
        rw [rounds, List.countP_cons_of_neg Bool.false_ne_true]
        rfl
      rwa [hrounds]

end Transfer

/-- What is counted once and is always the same is there once. -/
theorem filter_eq_singleton {l : List Store.Carried} {p : Store.Carried → Bool} {x : Store.Carried}
    (hone : l.countP p = 1) (hsame : ∀ held ∈ l, p held = true → held = x) : l.filter p = [x] := by
  rw [List.countP_eq_length_filter, List.length_eq_one_iff] at hone
  obtain ⟨held, hheld⟩ := hone
  obtain ⟨hmem, hp⟩ := List.mem_filter.mp (hheld ▸ List.mem_singleton_self held)
  rw [hheld, hsame held hmem hp]

open Transfer in
/-- **What a walk delivers.** Where it answers whole, every record of its partitions that stayed in
the table is in the files that were handed over once, as it is carried; no file has a record of
another partition, and no file failed to be taken in. A source that answers moves each piece on, so
a walk of a store that is not written to ends. -/
theorem walk_delivers_once (wanted : Share) {points : List Bytes}
    (hascend : points.Pairwise (· < ·)) (hnonempty : [] ∉ points) :
    (∀ es, (run (step wanted) (start points) es).Joined →
      (run (step wanted) (start points) es).whole = true →
      (∀ key value, partitionOf key ∈ wanted.partitions →
        (∀ e ∈ es, WalkEvent.Keeps wanted (Store.storeKey key) value e) →
        (run (step wanted) (start points) es).handed.flatten.filter (·.1 = Store.storeKey key) =
          [wanted.carried (Store.storeKey key, value)]) ∧
      (∀ file ∈ (run (step wanted) (start points) es).handed, ∀ held ∈ file,
        Store.InShare wanted.partitions held.1) ∧
      Always (step wanted) (fun t => t.failed = false) (start points) es) ∧
    (∀ es sources i s, ((run (step wanted) (start points) es).pieces i).going = true →
      sources i = .ok s → s.tables.has wanted.table = true → wanted.table ∈ s.disk.families →
      ((run (step wanted) (start points) (es ++ [.ask sources])).pieces i).going = true →
      ∃ next, ((run (step wanted) (start points) (es ++ [.ask sources])).pieces i).after =
        some next ∧ ((run (step wanted) (start points) es).pieces i).toPiece.After next) ∧
    (∀ (s : Store) (family : Family), s.tables.has wanted.table = true →
      s.disk.families[wanted.table]? = some family → ∀ es, (∀ e ∈ es, Steady s e) →
      family.toList.length < rounds es →
      ∀ i, ((run (step wanted) (start points) es).pieces i).going = false ∧
        ((run (step wanted) (start points) es).pieces i).whole = true) := by
  have hstart := @sound_start wanted points hnonempty
  have hsound : ∀ es, (run (step wanted) (start points) es).Sound wanted
    (piecesAt points) := fun es =>
    Throughout.invariant (C := fun _ _ => True) (fun _ e h _ => h.step e) hstart
      (throughout_true _ es)
  refine ⟨fun es hjoined hwhole => ?_, fun es sources i s hgoing hsource hhas hfamily hgoes => ?_,
    fun s family hhas hfamily es hsteady hrounds i => ?_⟩
  · obtain ⟨hfailed, hpieces⟩ := of_decide_eq_true hwhole
    refine ⟨fun key value hpartition hkeeps => ?_, (hsound es).handed,
      always_iff.mpr fun a b hab => ?_⟩
    · have hshare := Store.inShare_storeKey_iff.mpr hpartition
      obtain ⟨-, howed⟩ := Throughout.invariant
        (I := fun t => t.Sound wanted (piecesAt points) ∧
          t.Owed wanted (piecesAt points) (Store.storeKey key) value)
        (fun _ e h he => ⟨h.1.step e, h.2.step h.1 hshare he⟩) ⟨hstart, owed_start _ value⟩
        (throughout_of_forall hkeeps (start points))
      have hone := howed.owed hfailed
      rw [sum_owes_of_whole hascend hpieces, Finset.sum_eq_zero, Nat.add_zero] at hone
      · exact filter_eq_singleton hone fun held hheld hkey => by
          obtain ⟨file, hfile, hin⟩ := List.mem_flatten.mp hheld
          exact howed.handed file hfile held hin (of_decide_eq_true hkey)
      · intro i _
        rw [hjoined i]
        rfl
    · by_contra hno
      rw [Bool.not_eq_false] at hno
      have hend : (run (step wanted) (start points) es).failed = true := by
        rw [hab, run_append]
        exact Throughout.invariant (I := fun t : Transfer _ => t.failed = true)
          (C := fun _ _ => True) (fun _ _ h _ => failed_step h) hno (throughout_true _ b)
      exact absurd (hfailed.symm.trans hend) (by decide)
  · rw [run_append, run_cons, run_nil] at hgoes ⊢
    rcases asked_cases (hsound es) sources i with
      ⟨-, hstopped⟩ | ⟨-, ⟨-, hrefused⟩ | ⟨s', family, -, -, ha⟩⟩
    · exact absurd (hstopped.symm.trans hgoing) (by decide)
    · exact absurd ⟨hhas, hfamily⟩ (hrefused s hsource)
    · cases hmore : (fileOf wanted _ ((run (step wanted) (start points) es).pieces i).toPiece
          family).hasMore with
      | false => exact absurd ((ha.ended hmore).2.1.symm.trans hgoes) (by decide)
      | true => exact ⟨_, (ha.more hmore).1, (last_fileOf hmore).2.2.1⟩
  · have hadvanced : (start points).Advanced family 0 := fun i => Or.inr ⟨rfl, Nat.zero_le _⟩
    have hend := advanced_run hhas hfamily hsteady hstart hadvanced
    refine (hend i).resolve_right fun hgoes => ?_
    have hle : passed ((run (step wanted) (start points) es).pieces i).toPiece family.toList ≤
        family.toList.length := List.countP_le_length
    have hpassed := hgoes.2
    omega

/-! ### A table of a few records -/

/-- A store with one record. -/
def storeOfRecord : Store :=
  let fresh := (Node.fresh JsonText.codec).store
  let created := Throwing.after (Store.createTable JsonText.codec {} ⟨ascii "t", []⟩ ⟨1, 1⟩ fresh)
  Throwing.after (Store.writeRecord {} (ascii "t") ⟨ascii "k", ascii "v", ⟨2, 1⟩⟩ created)

theorem partitionOf_record : partitionOf (ascii "k") = ⟨101, by decide⟩ := by decide +kernel

/-- The partition of the record. -/
def shareOfRecord : Share where
  node := ascii "b"
  table := ascii "t"
  partitions := {⟨101, by decide⟩}

/-- The keys of four records of its partition. -/
def fourKeys : List Bytes :=
  [ascii "1", ascii "2", ascii "3", ascii "4"].map (Record.composeKey (ascii "k"))

theorem partitionOf_fourKeys : ∀ key ∈ fourKeys, partitionOf key = ⟨101, by decide⟩ := by
  decide +kernel

/-- A store with the four. -/
def storeOfFour : Store :=
  let fresh := (Node.fresh JsonText.codec).store
  let created := Throwing.after (Store.createTable JsonText.codec {} ⟨ascii "t", []⟩ ⟨1, 1⟩ fresh)
  fourKeys.foldl (fun s key =>
    Throwing.after (Store.writeRecord {} (ascii "t") ⟨key, ascii "v", ⟨2, 1⟩⟩ s)) created

/-- Files of one record each. -/
def shareOfFour : Share := { shareOfRecord with bytes := 1 }

/-- The second of the keys, where the table is cut. -/
def cutOfFour : List Bytes := [Store.storeKey (Record.composeKey (ascii "k") (ascii "2"))]

/-- Both pieces are asked for their next file, and it is taken in. -/
def roundOfFour : List (WalkEvent (piecesOf cutOfFour).length) :=
  [.ask fun _ => .ok storeOfFour, .take ⟨0, by decide⟩ false, .take ⟨1, by decide⟩ false]

/-- A walk in two pieces of two files each, and of an empty one, hands every record over once. -/
theorem walk_delivers_once_record :
    let t := run (Transfer.step shareOfFour) (Transfer.start cutOfFour)
      (roundOfFour ++ roundOfFour ++ roundOfFour)
    t.Joined ∧ t.whole = true ∧ ∀ key ∈ fourKeys, ∃ value, t.handed.flatten.filter
      (·.1 = Store.storeKey key) = [shareOfFour.carried (Store.storeKey key, value)] := by
  have hjoined : (run (Transfer.step shareOfFour) (Transfer.start cutOfFour)
      (roundOfFour ++ roundOfFour ++ roundOfFour)).Joined := by
    decide +kernel
  have hwhole : (run (Transfer.step shareOfFour) (Transfer.start cutOfFour)
      (roundOfFour ++ roundOfFour ++ roundOfFour)).whole = true := by
    decide +kernel
  refine ⟨hjoined, hwhole, fun key hkey => ?_⟩
  have hheld : ∀ key ∈ fourKeys, ((storeOfFour.disk.families[ascii "t"]?).bind
      (·[Store.storeKey key]?)).isSome = true := by
    decide +kernel
  obtain ⟨value, hvalue⟩ := Option.isSome_iff_exists.mp (hheld key hkey)
  have hround : ∀ e ∈ roundOfFour, WalkEvent.Keeps shareOfFour (Store.storeKey key) value e := by
    intro e he
    simp only [roundOfFour, List.mem_cons, List.not_mem_nil, or_false] at he
    rcases he with rfl | rfl | rfl
    · intro i s hs
      rw [← Except.ok.inj hs]
      exact hvalue
    · trivial
    · trivial
  refine ⟨value, ((walk_delivers_once shareOfFour (List.pairwise_singleton _ _) (by decide)).1 _
    hjoined hwhole).1 key value ?_ ?_⟩
  · rw [partitionOf_fourKeys key hkey]
    exact Finset.mem_singleton_self _
  · intro e he
    rcases List.mem_append.mp he with he | he
    · exact (List.mem_append.mp he).elim (hround e) (hround e)
    · exact hround e he

/-- Cut at a key with nothing in it, a table is handed over twice: no bound is read of such a
key. -/
theorem walk_delivers_twice :
    ([[]] : List Bytes).Pairwise (· < ·) ∧
      let t := run (Transfer.step shareOfRecord) (Transfer.start [[]])
        [.ask fun _ => .ok storeOfRecord, .take ⟨0, by decide⟩ false, .take ⟨1, by decide⟩ false]
      t.Joined ∧ t.whole = true ∧
        t.handed.countP (fun file => file.any (·.1 = Store.storeKey (ascii "k"))) = 2 := by
  exact ⟨List.pairwise_singleton _ _, by decide +kernel⟩

end AsyncDatabase
