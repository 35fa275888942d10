import AsyncDatabase.Library.JsonText
import AsyncDatabase.Repository.Scanning
import AsyncDatabase.Router.Forwarder

/-!
# A scan through another node

A node that does not hold a partition asks one that does, and hands on the page it is answered with.
`scan_through_iff` says when a client gets the page the node that holds the partition would have
answered it.
-/

namespace AsyncDatabase

open Bytes (ascii)
open Throwing

/-! ### Documents -/

/-- An answer is a document that a parser gives back where it takes it at all. -/
structure Response.IsWritten (answer : Response) : Prop where
  canonical : answer.json.Canonical
  members : ∃ first rest, answer.json = .object (first :: rest)

theorem Response.IsWritten.body_eq {J : JsonCodec} {answer : Response} (h : answer.IsWritten) :
    answer.isDocument = true ∧ answer.body J = J.serialize answer.json := by
  obtain ⟨first, rest, hjson⟩ := h.members
  have hdocument : answer.isDocument = true := by rw [Response.isDocument, hjson]
  exact ⟨hdocument, if_pos hdocument⟩

theorem isWritten_errorResponse (code : Code) (message : Bytes) :
    (errorResponse code message).IsWritten where
  canonical := by
    have hnames : [ascii "code", ascii "message"].Nodup := by decide
    constructor
    · simpa [errorResponse, Json.regular, Json.regularMembers] using hnames
    · simp [errorResponse, Json.depth, Json.depthMembers, Json.maxDepth]
  members := ⟨_, _, rfl⟩

theorem utf8_errorResponse (code : Code) (message : Bytes) :
    (errorResponse code message).json.utf8 = Utf8.valid message := by
  have herror : Utf8.valid (ascii "error") = true := Utf8.valid_of_forall_lt (by decide +kernel)
  have hname : Utf8.valid (ascii "code") = true := Utf8.valid_of_forall_lt (by decide +kernel)
  have hmessage : Utf8.valid (ascii "message") = true := Utf8.valid_of_forall_lt (by decide +kernel)
  have hcode : Utf8.valid code.name = true := by
    cases code <;> exact Utf8.valid_of_forall_lt (by decide +kernel)
  simp [errorResponse, Json.utf8, Json.utf8Members, herror, hname, hmessage, hcode]

namespace Node

variable {J : JsonCodec} {w : Seams}

theorem canonical_recordJson (record : Record) (values : Bool) :
    (recordJson record values).regular ∧ (recordJson record values).depth = 1 := by
  have hnames : [ascii "key", ascii "sort", ascii "value"].Nodup := by decide
  unfold recordJson
  dsimp only
  split_ifs <;>
    simp [Json.regular, Json.regularMembers, Json.depth, Json.depthMembers] at hnames ⊢ <;> tauto

/-- A record of a page is text where its key is and its value is, which is left out where it is not
asked for. -/
theorem utf8_recordJson {record : Record} (hkey : Utf8.valid record.key = true) (values : Bool) :
    (recordJson record values).utf8 = (!values || Utf8.valid record.value) := by
  have hnames : Utf8.valid (ascii "key") = true ∧ Utf8.valid (ascii "sort") = true ∧
      Utf8.valid (ascii "value") = true :=
    ⟨Utf8.valid_of_forall_lt (by decide +kernel), Utf8.valid_of_forall_lt (by decide +kernel),
      Utf8.valid_of_forall_lt (by decide +kernel)⟩
  obtain ⟨hpartition, hsort⟩ := Record.utf8_halves hkey
  unfold recordJson
  dsimp only
  split_ifs with hnone hvalues <;>
    simp_all [Json.utf8, Json.utf8Members]

/-- A page is its records, with a cursor or without. -/
theorem pageResponse_eq (page : Scan.Page) (range : Scan.Range) :
    ∃ next : List (Bytes × Json), (next = [] ∨ ∃ cursor, next = [(ascii "next", .string cursor)] ∧
        Utf8.valid cursor = true) ∧
      pageResponse J w page range = jsonResponse 200 (.object ((ascii "records",
        .array (page.records.map (recordJson · range.values))) :: next)) := by
  unfold pageResponse
  cases page.records.getLast? with
  | none => exact ⟨[], Or.inl rfl, rfl⟩
  | some last =>
    dsimp only
    split_ifs
    · exact ⟨_, Or.inr ⟨_, rfl, Utf8.valid_of_forall_lt fun b => Base64.lt_of_mem_encode⟩, rfl⟩
    · exact ⟨[], Or.inl rfl, rfl⟩

theorem isWritten_pageResponse (page : Scan.Page) (range : Scan.Range) :
    (pageResponse J w page range).IsWritten := by
  obtain ⟨next, hnext, hpage⟩ := pageResponse_eq (J := J) (w := w) page range
  have hnames : ascii "records" ≠ ascii "next" := by decide
  have hrecords : Json.regularItems (page.records.map (recordJson · range.values)) := by
    rw [Json.regularItems_iff]
    intro v hv
    obtain ⟨record, -, rfl⟩ := List.mem_map.mp hv
    exact (canonical_recordJson record range.values).1
  have hdepth : Json.depthItems (page.records.map (recordJson · range.values)) ≤ 1 := by
    rw [Json.depthItems_le_iff]
    intro v hv
    obtain ⟨record, -, rfl⟩ := List.mem_map.mp hv
    exact (canonical_recordJson record range.values).2.le
  rw [hpage]
  refine ⟨⟨?_, ?_⟩, _, _, rfl⟩
  · rcases hnext with rfl | ⟨cursor, rfl, -⟩ <;>
      simp [jsonResponse, Json.regular, Json.regularMembers, hrecords, hnames]
  · rcases hnext with rfl | ⟨cursor, rfl, -⟩ <;>
      simp [jsonResponse, Json.depth, Json.depthMembers, Json.maxDepth] <;> omega

theorem utf8_pageResponse (page : Scan.Page) (range : Scan.Range)
    (hkeys : ∀ record ∈ page.records, Utf8.valid record.key = true) :
    (pageResponse J w page range).json.utf8 = true ↔
      (range.values = true → ∀ record ∈ page.records, Utf8.valid record.value = true) := by
  obtain ⟨next, hnext, hpage⟩ := pageResponse_eq (J := J) (w := w) page range
  have hnames : Utf8.valid (ascii "records") = true ∧ Utf8.valid (ascii "next") = true :=
    ⟨Utf8.valid_of_forall_lt (by decide +kernel), Utf8.valid_of_forall_lt (by decide +kernel)⟩
  have hrecords : Json.utf8Items (page.records.map (recordJson · range.values)) = true ↔
      (range.values = true → ∀ record ∈ page.records, Utf8.valid record.value = true) := by
    rw [Json.utf8Items_eq_all, List.all_eq_true]
    constructor
    · intro hall hvalues record hmem
      have hutf8 := hall _ (List.mem_map_of_mem hmem)
      rw [utf8_recordJson (hkeys record hmem), hvalues] at hutf8
      simpa using hutf8
    · intro hvalues v hv
      obtain ⟨record, hmem, rfl⟩ := List.mem_map.mp hv
      rw [utf8_recordJson (hkeys record hmem)]
      cases hasks : range.values with
      | false => rfl
      | true => simpa using hvalues hasks record hmem
  rw [hpage, ← hrecords]
  rcases hnext with rfl | ⟨cursor, rfl, hcursor⟩
  · simp [jsonResponse, Json.utf8, Json.utf8Members, hnames]
  · simp [jsonResponse, Json.utf8, Json.utf8Members, hnames, hcursor]

end Node

/-! ### Through another node -/

section

variable {J : JsonCodec} {answer other : Response} {node : Bytes}

/-- A document that is text goes through another node as it is. -/
theorem throughNode_of_utf8 (node : Bytes) (h : answer.IsWritten)
    (hutf8 : answer.json.utf8 = true) :
    (answer.throughNode J node false).toClient J false = answer.toClient J false := by
  obtain ⟨hdocument, hbody⟩ := h.body_eq (J := J)
  obtain ⟨first, rest, hjson⟩ := h.members
  rw [Response.throughNode, if_neg Bool.false_ne_true]
  by_cases hempty : answer.body J = []
  · rw [if_pos hempty, Response.toClient, Response.toClient, if_neg Bool.false_ne_true,
      if_neg Bool.false_ne_true, hempty]
    rfl
  · have hparse : J.parse (answer.body J) = some (.object (first :: rest)) := by
      rw [hbody, J.parse_serialize h.canonical, if_pos hutf8, hjson]
    rw [if_neg hempty, hdocument, if_neg (by simp), hparse]
    dsimp only
    rw [Response.toClient, Response.toClient, if_neg Bool.false_ne_true,
      if_neg Bool.false_ne_true, hbody, hjson]
    rfl

/-- A document that is not text does not. -/
theorem throughNode_of_not_utf8 (hwritten : ∀ members, J.serialize (.object members) ≠ [])
    (h : answer.IsWritten) (hutf8 : answer.json.utf8 = false) :
    (answer.throughNode J node false).status = 500 := by
  obtain ⟨hdocument, hbody⟩ := h.body_eq (J := J)
  obtain ⟨first, rest, hjson⟩ := h.members
  have hparse : J.parse (answer.body J) = none := by
    rw [hbody, J.parse_serialize h.canonical, hutf8]
    rfl
  have hempty : answer.body J ≠ [] := by
    rw [hbody, hjson]
    exact hwritten _
  rw [Response.throughNode, if_neg Bool.false_ne_true, if_neg hempty, hdocument,
    if_neg (by simp), hparse]
  rfl

/-- No document that goes through another node is one that is not text. -/
theorem toClient_throughNode_ne (hwritten : ∀ members, J.serialize (.object members) ≠ [])
    (h : answer.IsWritten) (hutf8 : answer.json.utf8 = false) (hstatus : answer.status < 500)
    (hother : other.IsWritten) :
    (other.throughNode J node false).toClient J false ≠ answer.toClient J false := by
  intro heq
  obtain ⟨-, hbody⟩ := h.body_eq (J := J)
  cases hclean : other.json.utf8 with
  | true =>
    obtain ⟨-, hbody'⟩ := hother.body_eq (J := J)
    rw [throughNode_of_utf8 node hother hclean] at heq
    have hsame : J.serialize other.json = J.serialize answer.json := by
      rw [← hbody, ← hbody']
      exact congrArg Prod.snd heq
    have hread := J.parse_serialize hother.canonical
    rw [hsame, J.parse_serialize h.canonical, hutf8, hclean] at hread
    cases hread
  | false =>
    have hfailed : (other.throughNode J node false).status = 500 :=
      throughNode_of_not_utf8 hwritten hother hclean
    have hsame : (other.throughNode J node false).status = answer.status := congrArg Prod.fst heq
    omega

end

namespace Node

variable {J : JsonCodec} {w : Seams} {request : Request} {name : Bytes} {n : Node} {family : Family}

/-- A walk of the copies answers what one of them answered. -/
theorem exists_readRecord (w : Seams) (request : Request) {nodes : List Bytes}
    (hne : nodes ≠ []) (answer : Response) :
    ∃ node ∈ nodes, readRecord w request nodes answer = w.forward node request := by
  induction nodes generalizing answer with
  | nil => exact absurd rfl hne
  | cons first rest ih =>
    unfold readRecord
    dsimp only
    split_ifs with hanswers
    · exact ⟨first, List.mem_cons_self, rfl⟩
    · cases rest with
      | nil => exact ⟨first, List.mem_cons_self, rfl⟩
      | cons second rest =>
        obtain ⟨node, hnode, heq⟩ := ih (List.cons_ne_nil _ _) (w.forward first request)
        exact ⟨node, List.mem_cons_of_mem _ hnode, heq⟩

theorem respond_of_ok {x : Route Response} {answer : Response} {n' : Node}
    (h : x n = .ok answer n') : respond x n = answer := by
  rw [respond, h]

theorem isWritten_answerPage (J : JsonCodec) (w : Seams) (request : Request)
    (name : Bytes) (n : Node) : (respond (answerPage J w request name) n).IsWritten := by
  unfold answerPage
  cases hrange : Scan.parseRange J request.query w.instanceName with
  | error refused => exact isWritten_errorResponse _ _
  | ok range =>
    dsimp only
    rw [respond, run_bind]
    cases onStore (Store.scanRecords w.db name range) n with
    | error thrown n' => exact isWritten_errorResponse _ _
    | ok page n' => exact isWritten_pageResponse page range

/-- A scan that another node sent on is answered here, by a node that is whole. -/
theorem scanRecords_forwarded (hforwarded : request.forwarded = true) :
    scanRecords J w request name n =
      if !n.store.tables.has name then .ok (tableNotFound name) n
      else match Scan.readPartition request.query with
        | none => .ok Scan.unnamedPartition.response n
        | some named =>
          if n.isShortOf named then .ok nodeIncomplete n else answerPage J w request name n := by
  unfold scanRecords
  rw [if_neg (by simp [hforwarded]), run_bind_get]
  by_cases hhas : (!n.store.tables.has name) = true
  · rw [if_pos hhas, if_pos hhas]
    rfl
  · rw [if_neg hhas, if_neg hhas]
    cases Scan.readPartition request.query with
    | none => rfl
    | some named => cases hshort : n.isShortOf named <;> simp [hforwarded, hshort]

/-- What a node answers a scan it was sent is a document. -/
theorem isWritten_scanRecords (J : JsonCodec) (w : Seams) (name : Bytes) (n : Node)
    (hforwarded : request.forwarded = true) :
    (respond (scanRecords J w request name) n).IsWritten := by
  rw [respond, scanRecords_forwarded hforwarded]
  split_ifs
  · exact isWritten_errorResponse _ _
  · cases Scan.readPartition request.query with
    | none => exact isWritten_errorResponse _ _
    | some named =>
      dsimp only
      split_ifs
      · exact isWritten_errorResponse _ _
      · exact isWritten_answerPage J w request name n

end Node

/-! ### The page of the node that holds the partition -/

/-- A node that a scan is sent on to, and what surrounds it there. -/
structure Copy where
  name : Bytes
  seams : Seams
  node : Node

/-- What comes back from a node that a scan of a table is sent on to. -/
def Copy.answer (J : JsonCodec) (c : Copy) (request : Request) (table : Bytes) : Response :=
  (Node.respond (Node.routeRange J c.seams request.received table) c.node).throughNode J c.name
    (request.method = .head)

/-- A node that does not hold the partition a scan names, the node it asks first, and those it asks
where that one cannot answer. -/
structure Passes (J : JsonCodec) (w : Seams) (n : Node) (request : Request) (table : Bytes)
    (holder : Copy) (others : List Copy) : Prop where
  client : request.forwarded = false
  alone : w.isAlone = false
  has : n.store.tables.has table = true
  place : ∀ partition, Scan.readPartition request.query = some partition →
    w.copiesOf partition = { isLocal := false, nodes := (holder :: others).map Copy.name }
  forward : ∀ c ∈ holder :: others, w.forward c.name request = c.answer J request table

/-- The node holds the partition a scan names, it is whole, and it can read the table. -/
structure Holds (w : Seams) (n : Node) (request : Request) (table : Bytes) (family : Family) :
    Prop where
  alone : w.isAlone = false
  has : n.store.tables.has table = true
  family : n.store.disk.families[table]? = some family
  reads : w.db.getRecord = .ok
  place : ∀ partition, Scan.readPartition request.query = some partition →
    (w.copiesOf partition).isLocal = true ∧ n.isShortOf partition = false

/-- All that a scan is answered with is text: what refuses it, or the values it asks for. -/
def Legible (J : JsonCodec) (family : Family) (query instanceName : Bytes) : Prop :=
  match Scan.parseRange J query instanceName with
  | .error refused => Utf8.valid refused.message = true
  | .ok range => range.values = true → ∀ held, Scan.OnPage range (Store.scanned family range) held →
      Utf8.valid (Record.valueOf held.2) = true

section

variable {J : JsonCodec} {w : Seams} {request : Request} {table : Bytes} {n : Node}
  {holder : Copy} {others : List Copy} {family : Family}

/-- The page a node answers from its own store. -/
theorem Holds.answerPage_eq (h : Holds w n request table family) :
    Node.respond (Node.answerPage J w request table) n =
      match Scan.parseRange J request.query w.instanceName with
      | .error refused => refused.response
      | .ok range =>
        Node.pageResponse J w (Scan.fill range (Store.scanned family range) {} 0) range := by
  unfold Node.answerPage
  cases hrange : Scan.parseRange J request.query w.instanceName with
  | error refused => rfl
  | ok range =>
    have hscan : Store.scanRecords w.db table range n.store =
        .ok (Scan.fill range (Store.scanned family range) {} 0) n.store := by
      rw [Store.scanRecords, run_bind, Store.tableHandle, run_bind_get, h.family, h.reads]
      rfl
    dsimp only
    rw [Node.respond, run_bind, Node.onStore, hscan]
    rfl

/-- **When the answer of the node that holds a partition is text.** -/
theorem Holds.utf8_answerPage_iff (h : Holds w n request table family)
    (haccepted : Accepted family) :
    (Node.respond (Node.answerPage J w request table) n).json.utf8 = true ↔
      Legible J family request.query w.instanceName := by
  rw [h.answerPage_eq, Legible]
  cases hrange : Scan.parseRange J request.query w.instanceName with
  | error refused =>
    have hutf8 : refused.response.json.utf8 = Utf8.valid refused.message := utf8_errorResponse _ _
    dsimp only
    rw [hutf8]
  | ok range =>
    dsimp only
    obtain ⟨taken, hfill, hplaces⟩ := Scan.fill_onPage range (Store.scanned family range)
    have hkeys : ∀ record ∈ (Scan.fill range (Store.scanned family range) {} 0).records,
        Utf8.valid record.key = true := by
      rw [hfill]
      intro record hmem
      obtain ⟨held, hheld, rfl⟩ := List.mem_map.mp hmem
      exact haccepted.utf8_of_mem_scanned _ (List.mem_of_mem_take hheld)
    rw [Node.utf8_pageResponse _ _ hkeys, hfill]
    refine forall_congr' fun hvalues => ?_
    simp only [List.forall_mem_map, Scan.read, hvalues, if_true, hplaces]

theorem Holds.status_answerPage (h : Holds w n request table family) :
    (Node.respond (Node.answerPage J w request table) n).status < 500 := by
  rw [h.answerPage_eq]
  cases hrange : Scan.parseRange J request.query w.instanceName with
  | error refused =>
    dsimp only
    rw [Scan.status_of_parseRange hrange]
    norm_num
  | ok range =>
    obtain ⟨next, -, hpage⟩ := Node.pageResponse_eq (J := J) (w := w)
      (Scan.fill range (Store.scanned family range) {} 0) range
    dsimp only
    rw [hpage, jsonResponse]
    norm_num

/-- A query that names no partition is refused by every node alike. -/
theorem answerPage_of_unnamed (h : Scan.readPartition request.query = none) :
    Node.answerPage J w request table = pure Scan.unnamedPartition.response := by
  have hrange : Scan.parseRange J request.query w.instanceName = .error Scan.unnamedPartition := by
    rw [Scan.parseRange, h]
  rw [Node.answerPage, hrange]

/-- A client that asks the node that holds the partition gets the page of its store. -/
theorem Holds.scanRecords_eq (h : Holds w n request table family) :
    Node.scanRecords J w request table n = Node.answerPage J w request table n := by
  unfold Node.scanRecords
  rw [if_neg (by simp [h.alone]), run_bind_get, h.has, if_neg (by simp)]
  cases hnamed : Scan.readPartition request.query with
  | none => rw [answerPage_of_unnamed hnamed]
  | some partition =>
    obtain ⟨hlocal, hwhole⟩ := h.place partition hnamed
    cases hforwarded : request.forwarded <;> simp [hlocal, hwhole]

/-- So does a node that passed the scan on. -/
theorem Holds.scanRecords_received (h : Holds w n request table family) :
    Node.scanRecords J w request.received table n = Node.answerPage J w request table n := by
  have hsame : Holds w n request.received table family :=
    ⟨h.alone, h.has, h.family, h.reads, h.place⟩
  rw [hsame.scanRecords_eq]
  rfl

/-- What a scan that is passed on is answered with: what some node it was sent to answers, which is
the first of them wherever that one can answer. -/
theorem Passes.scanRecords_cases (h : Passes J w n request table holder others) :
    (Scan.readPartition request.query = none ∧
        Node.scanRecords J w request table n = .ok Scan.unnamedPartition.response n) ∨
      ∃ c ∈ holder :: others, Node.scanRecords J w request table n =
        .ok (c.answer J request table) n ∧
        ((holder.answer J request table).status < 500 → c.answer J request table =
          holder.answer J request table) := by
  unfold Node.scanRecords
  rw [if_neg (by simp [h.alone]), run_bind_get, h.has, if_neg (by simp)]
  cases hnamed : Scan.readPartition request.query with
  | none => exact Or.inl ⟨rfl, rfl⟩
  | some partition =>
    have hplace := h.place partition hnamed
    have hfirst : ∀ answer, (holder.answer J request table).status < 500 →
        Node.readRecord w request ((holder :: others).map Copy.name) answer =
          holder.answer J request table := by
      intro answer hanswers
      rw [List.map_cons, Node.readRecord, h.forward holder List.mem_cons_self]
      exact if_pos hanswers
    obtain ⟨name, hname, hread⟩ := Node.exists_readRecord w request
      (List.cons_ne_nil holder.name (others.map Copy.name)) Node.nobodyAnswered
    obtain ⟨c, hc, rfl⟩ := List.mem_map.mp (List.map_cons ▸ hname)
    rw [h.forward c hc] at hread
    refine Or.inr ⟨c, hc, ?_, fun hanswers => hread.symm.trans (hfirst _ hanswers)⟩
    dsimp only
    rw [h.client, if_neg Bool.false_ne_true, hplace, if_neg (by simp), if_pos (by simp)]
    exact congrArg (fun answer => EStateM.Result.ok answer n) hread

theorem routeRange_eq (J : JsonCodec) (w : Seams) (table : Bytes) {request : Request}
    (hmethod : request.method = .get ∨ request.method = .head) :
    Node.routeRange J w request table = Node.scanRecords J w request table := by
  refine if_neg ?_
  rcases hmethod with hget | hhead
  · simp [hget]
  · simp [hhead]

/-- What comes back from the node that holds the partition. -/
theorem Holds.answer_eq (h : Holds holder.seams holder.node request table family)
    (hmethod : request.method = .get ∨ request.method = .head) :
    holder.answer J request table =
      (Node.respond (Node.answerPage J holder.seams request table) holder.node).throughNode J
        holder.name (request.method = .head) := by
  have hroute := routeRange_eq J holder.seams table (show request.received.method =
    .get ∨ _ from hmethod)
  rw [Copy.answer, hroute, Node.respond, h.scanRecords_received]
  rfl

/-- A scan that is asked for with a GET. -/
theorem scan_through_get (hwritten : ∀ members, J.serialize (.object members) ≠ [])
    (hpasses : Passes J w n request table holder others)
    (hholds : Holds holder.seams holder.node request table family) (haccepted : Accepted family)
    (hget : request.method = .get) :
    (Node.respond (Node.scanRecords J w request table) n).toClient J false =
        (Node.respond (Node.answerPage J holder.seams request table) holder.node).toClient J false ↔
      Legible J family request.query holder.seams.instanceName := by
  have hhead : decide (request.method = .head) = false := decide_eq_false (by simp [hget])
  have hwrite := Node.isWritten_answerPage J holder.seams request table holder.node
  have hstatus := hholds.status_answerPage (J := J)
  rw [← hholds.utf8_answerPage_iff haccepted]
  rcases hpasses.scanRecords_cases with ⟨hnamed, hrun⟩ | ⟨c, -, hrun, hsame⟩
  · have hutf8 : Scan.unnamedPartition.response.json.utf8 = true :=
      (utf8_errorResponse _ _).trans (Utf8.valid_of_forall_lt (by decide +kernel))
    have hrefused := Node.respond_of_ok (x := Node.answerPage J holder.seams request table)
      (n := holder.node) (by rw [answerPage_of_unnamed hnamed]; rfl)
    rw [Node.respond_of_ok hrun, hrefused]
    exact iff_of_true rfl hutf8
  · have hanswer := hholds.answer_eq (J := J) (Or.inl hget)
    rw [hhead] at hanswer
    rw [Node.respond_of_ok hrun]
    cases hutf8 :
      (Node.respond (Node.answerPage J holder.seams request table) holder.node).json.utf8 with
    | true =>
      have hthrough := throughNode_of_utf8 (J := J) holder.name hwrite hutf8
      rw [← hanswer] at hthrough
      have hlow : (holder.answer J request table).status < 500 := by
        have hstatuses : (holder.answer J request table).status = _ := congrArg Prod.fst hthrough
        rw [hstatuses]
        exact hstatus
      rw [hsame hlow, hthrough]
      simp
    | false =>
      have hother : ∃ other : Response, other.IsWritten ∧
          c.answer J request table = other.throughNode J c.name false := by
        refine ⟨_, Node.isWritten_scanRecords J c.seams table c.node
          (show request.received.forwarded = true from rfl), ?_⟩
        have hroute := routeRange_eq J c.seams table
          (show request.received.method = .get ∨ _ from Or.inl hget)
        rw [Copy.answer, hhead, hroute]
      obtain ⟨other, hwrite', hcame⟩ := hother
      rw [hcame]
      exact iff_of_false (toClient_throughNode_ne hwritten hwrite hutf8 hstatus hwrite') (by simp)

/-- **A client gets the page of the node that holds the partition** exactly where the page is text,
or where it asks for no page. -/
theorem scan_through_iff (hwritten : ∀ members, J.serialize (.object members) ≠ [])
    (hpasses : Passes J w n request table holder others)
    (hholds : Holds holder.seams holder.node request table family) (haccepted : Accepted family) :
    (Node.respond (Node.routeRange J w request table) n).toClient J (request.method = .head) =
        (Node.respond (Node.routeRange J holder.seams request table) holder.node).toClient J
          (request.method = .head) ↔
      (request.method = .get → Legible J family request.query holder.seams.instanceName) := by
  have hdirect : Node.respond (Node.scanRecords J holder.seams request table) holder.node =
      Node.respond (Node.answerPage J holder.seams request table) holder.node := by
    rw [Node.respond, hholds.scanRecords_eq]
    rfl
  by_cases hget : request.method = .get
  · have hhead : decide (request.method = .head) = false := decide_eq_false (by simp [hget])
    rw [routeRange_eq J w table (Or.inl hget), routeRange_eq J holder.seams
      table (Or.inl hget), hhead, hdirect, scan_through_get hwritten hpasses hholds haccepted hget]
    simp [hget]
  refine iff_of_true ?_ (fun hyes => absurd hyes hget)
  by_cases hhead : request.method = .head
  · -- a HEAD is answered with a status alone
    have hyes : decide (request.method = .head) = true := decide_eq_true hhead
    rw [routeRange_eq J w table (Or.inr hhead), routeRange_eq J holder.seams
      table (Or.inr hhead), hyes, hdirect]
    rcases hpasses.scanRecords_cases with ⟨hnamed, hrun⟩ | ⟨c, -, hrun, hsame⟩
    · have hrefused := Node.respond_of_ok (x := Node.answerPage J holder.seams request table)
        (n := holder.node) (by rw [answerPage_of_unnamed hnamed]; rfl)
      rw [Node.respond_of_ok hrun, hrefused]
    · have hanswer := hholds.answer_eq (J := J) (Or.inr hhead)
      rw [hyes, Response.throughNode, if_pos rfl] at hanswer
      rw [hanswer] at hsame
      rw [Node.respond_of_ok hrun, hsame hholds.status_answerPage]
      rfl
  · have hroute : ∀ w : Seams, Node.routeRange J w request table =
        pure (Node.methodNotAllowed request.method) := fun w => if_pos ⟨hget, hhead⟩
    rw [hroute, hroute]
    rfl

end

/-! ### A value that is not text -/

/-- A table with one record, whose value is no text. -/
def oneRecord : Family :=
  (∅ : Family).insert (Store.storeKey (ascii "k")) (Record.composeValue ⟨1, 1⟩ [0xff])

theorem accepted_oneRecord : Accepted oneRecord := accepted_empty.insert (by decide) _

def nodeWithRecord : Node where
  store := {
    disk := { Disk.fresh with families := Disk.fresh.families.insert (ascii "t") oneRecord }
    tables := (∅ : Schema).create ⟨ascii "t", []⟩ ⟨1, 1⟩ }

/-- The node that holds the record. -/
def recordHolder : Copy where
  name := ascii "b"
  seams := { instanceName := Bytes.decimal 7 }
  node := nodeWithRecord

/-- A node that asks it. -/
def asker : Seams where
  copiesOf _ := { isLocal := false, nodes := [ascii "b"] }
  forward _ request := recordHolder.answer JsonText.codec request (ascii "t")

def scanOf (query : Bytes) : Request :=
  { method := .get, path := [ascii "table", ascii "t", ascii "key"], query }

theorem passes_scanOf (query : Bytes) :
    Passes JsonText.codec asker nodeWithRecord (scanOf query) (ascii "t") recordHolder [] where
  client := rfl
  alone := rfl
  has := by decide
  place _ _ := rfl
  forward c hc := by rw [List.mem_singleton.mp hc]; rfl

theorem holds_scanOf (query : Bytes) :
    Holds recordHolder.seams recordHolder.node (scanOf query) (ascii "t") oneRecord where
  alone := rfl
  has := by decide
  family := Std.ExtTreeMap.getElem?_insert_self
  reads := rfl
  place _ _ := ⟨rfl, rfl⟩

theorem serialize_object_ne_nil (members : List (Bytes × Json)) :
    JsonText.codec.serialize (.object members) ≠ [] := by
  change JsonText.serialize (.object members) ≠ []
  cases members <;> simp [JsonText.serialize]

/-- The keys of the table alone, which are text. -/
theorem scan_through_keys :
    (Node.respond (Node.routeRange JsonText.codec asker (scanOf (ascii "key=k&values=false"))
        (ascii "t")) nodeWithRecord).toClient JsonText.codec false =
      (Node.respond (Node.routeRange JsonText.codec recordHolder.seams
        (scanOf (ascii "key=k&values=false")) (ascii "t")) nodeWithRecord).toClient JsonText.codec
          false :=
  (scan_through_iff serialize_object_ne_nil (passes_scanOf _) (holds_scanOf _)
    accepted_oneRecord).mpr fun _ => by
      have hrange : ∃ range, Scan.parseRange JsonText.codec (ascii "key=k&values=false")
          recordHolder.seams.instanceName = .ok range ∧ range.values = false := ⟨_, rfl, rfl⟩
      obtain ⟨range, hrange, hvalues⟩ := hrange
      change Legible _ _ (ascii "key=k&values=false") _
      rw [Legible, hrange]
      simp [hvalues]

/-- With its value the record comes through no other node. -/
theorem scan_through_ne :
    (Node.respond (Node.routeRange JsonText.codec asker (scanOf (ascii "key=k")) (ascii "t"))
        nodeWithRecord).toClient JsonText.codec false ≠
      (Node.respond (Node.routeRange JsonText.codec recordHolder.seams (scanOf (ascii "key=k"))
        (ascii "t")) nodeWithRecord).toClient JsonText.codec false := by
  decide +kernel

end AsyncDatabase
