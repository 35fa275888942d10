import AsyncDatabase.Router.Scans

/-!
# What a route sends on

The requests that each route of `router/router.cpp` sends to other nodes while it answers one of its
own, in the order it sends them and by the branches it takes. `routeUnderTable_congr` says that
these are all: a route answers nothing but what they were answered.
-/

namespace AsyncDatabase

open Bytes (ascii)
open Throwing

/-- A node that a request is sent on to, and the request. -/
abbrev Hop := Bytes × Request

namespace Node

variable (J : JsonCodec) (w : Seams)

/-- `read_record`: the copies are asked in turn until one answers. -/
def readSent (request : Request) : List Bytes → List Hop
  | [] => []
  | replica :: replicas =>
    (replica, request) ::
      if (w.forward replica request).status < 500 then [] else readSent request replicas

/-- `lead_write`. -/
def leadSent (request : Request) (name : Bytes) (record : Record) (lead : Leadership) (n : Node) :
    List Hop :=
  match orderWrite w name record lead n with
  | .ok stamped _ => (w.replicas record.key).nodes.map
      (·, request.carried stamped.stamp.term stamped.stamp.count)
  | .error _ _ => []

/-- `route_record`. -/
def routeRecordSent (request : Request) (name partition sort : Bytes) (n : Node) : List Hop :=
  if !isRecordVerb request.method then []
  else match parseRequest request partition sort with
    | .error _ => []
    | .ok record =>
      if request.method ≠ .put ∧ w.isAlone then []
      else if !n.store.tables.has name then []
      else if request.method ≠ .put then
        let place := w.replicas record.key
        if !place.isLocal then readSent w request place.nodes
        else
          match Store.readRecord w.db name record.key n.store with
          | .ok none _ => readSent w request place.nodes
          | _ => []
      else
        let lead := w.leader record.key
        if lead.isLocal then leadSent w request name record lead (n.led w record.key)
        else if !lead.known then []
        else [(lead.node, request)]

/-- `route_forwarded_record`. -/
def routeForwardedRecordSent (request : Request) (name partition sort : Bytes) (n : Node) :
    List Hop :=
  if !isRecordVerb request.method then []
  else match parseRequest request partition sort with
    | .error _ => []
    | .ok record =>
      if request.method ≠ .put ∨ request.term ≠ 0 then []
      else
        let lead := w.leader record.key
        if !lead.isLocal then [] else leadSent w request name record lead (n.led w record.key)

def recordSent (request : Request) (name partition sort : Bytes) (n : Node) : List Hop :=
  if request.forwarded then routeForwardedRecordSent w request name partition sort n
  else routeRecordSent w request name partition sort n

/-- `order_schema`. -/
def orderSent (request : Request) : List Hop :=
  let lead := w.leader tableKey
  if request.term = 0 ∧ lead.known ∧ !lead.isLocal ∧ !request.forwarded then
    [(lead.node, request)]
  else []

/-- What goes to the peers of the node that ordered an operation. -/
def carriedSent (request : Request) (order : Ordering) (stamp : Version) : List Hop :=
  order.peers.map (·, request.carried order.term stamp.count)

def createOrderedSent (request : Request) (name : Bytes) (body : Json) (order : Ordering)
    (n : Node) : List Hop :=
  match Table.parseTable name body fun other => n.store.tables.tables.any (·.name = other) with
  | .error _ => []
  | .ok table =>
    match schemaStamp w request order n with
    | .error _ _ => []
    | .ok stamp n' =>
      match n.store.tables.read name with
      | .ok existing => if existing ≠ table then [] else carriedSent request order stamp
      | .error _ =>
        match carryOut tablePartition stamp.term (Store.createTable J w.db table stamp) n' with
        | .error _ _ => []
        | .ok _ _ => carriedSent request order stamp

/-- `create_table`. -/
def createSent (request : Request) (name : Bytes) (n : Node) : List Hop :=
  match parseBody J request.body with
  | none => []
  | some body =>
    match orderSchema w request n with
    | .ok (.ok order) n' => createOrderedSent J w request name body order n'
    | _ => orderSent w request

def deleteOrderedSent (request : Request) (name : Bytes) (order : Ordering) (n : Node) :
    List Hop :=
  match schemaStamp w request order n with
  | .error _ _ => []
  | .ok stamp n' =>
    if !n'.store.tables.has name ∧ (order.carried ∨ n'.isIncomplete) then []
    else if !n'.store.tables.has name then carriedSent request order stamp
    else
      match carryOut tablePartition stamp.term (Store.deleteTable J w.db name stamp) n' with
      | .error _ _ => []
      | .ok _ _ => carriedSent request order stamp

/-- `delete_table`. -/
def deleteSent (request : Request) (name : Bytes) (n : Node) : List Hop :=
  match orderSchema w request n with
  | .ok (.ok order) n' => deleteOrderedSent J w request name order n'
  | _ => orderSent w request

/-- `scan_records`. -/
def scanSent (request : Request) (name : Bytes) (n : Node) : List Hop :=
  if !request.forwarded ∧ w.isAlone then []
  else if !n.store.tables.has name then []
  else match Scan.readPartition request.query with
    | none => []
    | some named =>
      let place := if request.forwarded then {} else w.copiesOf named
      if place.isLocal ∧ !n.isShortOf named then [] else readSent w request place.nodes

/-- `route_table`. -/
def routeTable (request : Request) (name : Bytes) : Route Response := do
  if request.method = .put then createTable J w request name
  else if request.method = .delete then deleteTable J w request name
  else if request.method ≠ .get ∧ request.method ≠ .head then
    pure (methodNotAllowed request.method)
  else
    let n ← get
    match n.store.tables.read name with
    | .error refused => pure refused.response
    | .ok table => pure (jsonResponse 200 table.toJson)

def routeTableSent (request : Request) (name : Bytes) (n : Node) : List Hop :=
  if request.method = .put then createSent J w request name n
  else if request.method = .delete then deleteSent J w request name n
  else []

def routeKeysSent (request : Request) (n : Node) : List Hop :=
  match request.path with
  | table :: name :: key :: rest =>
    if table ≠ ascii "table" ∨ key ≠ ascii "key" then []
    else match rest with
      | [] =>
        if request.method ≠ .get ∧ request.method ≠ .head then [] else scanSent w request name n
      | [partition] => recordSent w request name partition [] n
      | [partition, sort] => recordSent w request name partition sort n
      | _ => []
  | _ => []

/-- What `route` does with a path under `/table/{name}`. -/
def routeUnderTable (request : Request) : Route Response :=
  match request.path with
  | [table, name] =>
    if table = ascii "table" then routeTable J w request name
    else pure (notFound (ascii "route for this path"))
  | _ => routeKeys J w request

/-- What a node sends on while it answers a request. -/
def sentOn (request : Request) (n : Node) : List Hop :=
  match request.path with
  | [table, name] => if table = ascii "table" then routeTableSent J w request name n else []
  | _ => routeKeysSent w request n

/-! ### Nothing else is asked -/

section Congr

variable {J} {w} {f : Bytes → Request → Response}

/-- What is sent on is answered as the surroundings say. -/
def Answers (w : Seams) (f : Bytes → Request → Response) (sent : List Hop) : Prop :=
  ∀ hop ∈ sent, f hop.1 hop.2 = w.forward hop.1 hop.2

theorem run_ite_congr {c : Prop} [Decidable c] {α : Type} {x y x' y' : Route α} {n : Node}
    (hpos : c → x n = x' n) (hneg : ¬c → y n = y' n) :
    (if c then x else y) n = (if c then x' else y') n := by
  by_cases hc : c
  · rw [if_pos hc, if_pos hc, hpos hc]
  · rw [if_neg hc, if_neg hc, hneg hc]

theorem readRecord_congr {request : Request} {nodes : List Bytes}
    (h : Answers w f (readSent w request nodes)) (answer : Response) :
    readRecord { w with forward := f } request nodes answer =
      readRecord w request nodes answer := by
  induction nodes generalizing answer with
  | nil => rfl
  | cons replica replicas ih =>
    have hfirst : f replica request = w.forward replica request := h _ List.mem_cons_self
    unfold readRecord
    dsimp only
    rw [hfirst]
    split_ifs with hanswers
    · rfl
    · refine ih (fun hop hmem => h hop ?_) _
      rw [readSent, if_neg hanswers]
      exact List.mem_cons_of_mem _ hmem

theorem forwardAll_congr {request : Request} {nodes : List Bytes}
    (h : Answers w f (nodes.map (·, request))) :
    Seams.forwardAll { w with forward := f } nodes request = w.forwardAll nodes request :=
  List.map_congr_left fun node hnode => h (node, request) (List.mem_map.mpr ⟨node, hnode, rfl⟩)

theorem leadWrite_congr {request : Request} {name : Bytes} {record : Record} {lead : Leadership}
    {n : Node} (h : Answers w f (leadSent w request name record lead n)) :
    leadWrite { w with forward := f } request name record lead n =
      leadWrite w request name record lead n := by
  have horder : orderWrite { w with forward := f } name record lead =
    orderWrite w name record lead :=
    rfl
  rw [leadWrite_eq, leadWrite_eq, horder]
  unfold leadSent at h
  cases hrun : orderWrite w name record lead n with
  | error e n' => rfl
  | ok stamped n' =>
    rw [hrun] at h
    dsimp only
    rw [forwardAll_congr h]

theorem routeRecord_congr {request : Request} {name partition sort : Bytes} {n : Node}
    (h : Answers w f (routeRecordSent w request name partition sort n)) :
    routeRecord { w with forward := f } request name partition sort n =
      routeRecord w request name partition sort n := by
  unfold routeRecordSent at h
  unfold routeRecord
  refine run_ite_congr (fun _ => rfl) fun hverb => ?_
  rw [if_neg hverb] at h
  cases hparse : parseRequest request partition sort with
  | error refused => rfl
  | ok record =>
    rw [hparse] at h
    simp only [run_bind_get]
    refine run_ite_congr (fun _ => rfl) fun halone => ?_
    dsimp only at h
    rw [if_neg halone] at h
    refine run_ite_congr (fun _ => rfl) fun hhas => ?_
    rw [if_neg hhas] at h
    refine run_ite_congr (fun hread => ?_) fun hwrite => ?_
    · rw [if_pos hread] at h
      refine run_ite_congr (fun hlocal => ?_) fun hlocal => ?_
      · rw [if_pos hlocal] at h
        rw [readRecord_congr h]
      · rw [if_neg hlocal] at h
        rw [run_bind, run_bind]
        unfold onStore
        cases hread : Store.readRecord w.db name record.key n.store with
        | error e s => rfl
        | ok value s =>
          rw [hread] at h
          cases value with
          | some value => rfl
          | none =>
            refine run_ite_congr (fun _ => ?_) fun _ => rfl
            rw [readRecord_congr h]
    · rw [if_neg hwrite] at h
      rw [run_bind, run_bind, leader_eq, leader_eq]
      refine run_ite_congr (fun hlocal => ?_) fun hlocal => ?_
      · rw [if_pos hlocal] at h
        exact leadWrite_congr h
      · rw [if_neg hlocal] at h
        refine run_ite_congr (fun _ => rfl) fun hknown => ?_
        rw [if_neg hknown] at h
        have hanswer := h _ (List.mem_singleton.mpr rfl)
        dsimp only at hanswer ⊢
        rw [hanswer]

theorem routeForwardedRecord_congr {request : Request} {name partition sort : Bytes} {n : Node}
    (h : Answers w f (routeForwardedRecordSent w request name partition sort n)) :
    routeForwardedRecord { w with forward := f } request name partition sort n =
      routeForwardedRecord w request name partition sort n := by
  unfold routeForwardedRecordSent at h
  unfold routeForwardedRecord
  refine run_ite_congr (fun _ => rfl) fun hverb => ?_
  rw [if_neg hverb] at h
  cases hparse : parseRequest request partition sort with
  | error refused => rfl
  | ok record =>
    rw [hparse] at h
    dsimp only at h ⊢
    refine run_ite_congr (fun _ => rfl) fun hwrite => ?_
    refine run_ite_congr (fun _ => rfl) fun hterm => ?_
    rw [if_neg (by tauto)] at h
    rw [run_bind, run_bind, leader_eq, leader_eq]
    refine run_ite_congr (fun _ => rfl) fun hlocal => ?_
    rw [if_neg hlocal] at h
    exact leadWrite_congr h

theorem record_congr {request : Request} {name partition sort : Bytes} {n : Node}
    (h : Answers w f (recordSent w request name partition sort n)) :
    record { w with forward := f } request name partition sort n =
      record w request name partition sort n := by
  unfold recordSent at h
  refine run_ite_congr (fun hforwarded => ?_) fun hforwarded => ?_
  · rw [if_pos hforwarded] at h
    exact routeForwardedRecord_congr h
  · rw [if_neg hforwarded] at h
    exact routeRecord_congr h

theorem carriedOut_congr {request : Request} {order : Ordering} {stamp : Version}
    (h : Answers w f (carriedSent request order stamp)) (done : Response) :
    carriedOut { w with forward := f } request order stamp done =
      carriedOut w request order stamp done := by
  rw [carriedOut, forwardAll_congr h, carriedOut]

theorem createOrdered_congr {request : Request} {name : Bytes} {body : Json} {order : Ordering}
    {n : Node} (h : Answers w f (createOrderedSent J w request name body order n)) :
    createOrdered J { w with forward := f } request name body order n =
      createOrdered J w request name body order n := by
  unfold createOrderedSent at h
  unfold createOrdered
  rw [run_bind_get, run_bind_get]
  cases hparse : Table.parseTable name body
      fun other => n.store.tables.tables.any (·.name = other) with
  | error refused => rfl
  | ok table =>
    rw [hparse] at h
    have hschema : schemaStamp { w with forward := f } request order =
      schemaStamp w request order :=
      rfl
    dsimp only at h ⊢
    rw [run_bind, run_bind, hschema]
    cases hstamp : schemaStamp w request order n with
    | error e n' => rfl
    | ok stamp n' =>
      rw [hstamp] at h
      dsimp only at h ⊢
      cases hexisting : n.store.tables.read name with
      | ok existing =>
        rw [hexisting] at h
        dsimp only at h ⊢
        refine run_ite_congr (fun _ => rfl) fun hsame => ?_
        rw [if_neg hsame] at h
        rw [carriedOut_congr h]
      | error missing =>
        rw [hexisting] at h
        dsimp only at h ⊢
        rw [run_bind, run_bind]
        cases hrun : carryOut tablePartition stamp.term
          (Store.createTable J w.db table stamp) n' with
        | error e n'' => rfl
        | ok done n'' =>
          rw [hrun] at h
          dsimp only at h ⊢
          rw [carriedOut_congr h]

theorem deleteOrdered_congr {request : Request} {name : Bytes} {order : Ordering} {n : Node}
    (h : Answers w f (deleteOrderedSent J w request name order n)) :
    deleteOrdered J { w with forward := f } request name order n =
      deleteOrdered J w request name order n := by
  unfold deleteOrderedSent at h
  unfold deleteOrdered
  have hschema : schemaStamp { w with forward := f } request order = schemaStamp w request order :=
    rfl
  rw [run_bind, run_bind, hschema]
  cases hstamp : schemaStamp w request order n with
  | error e n' => rfl
  | ok stamp n' =>
    rw [hstamp] at h
    dsimp only at h ⊢
    rw [run_bind_get, run_bind_get]
    refine run_ite_congr (fun hhas => ?_) fun hhas => ?_
    · refine run_ite_congr (fun _ => rfl) fun hcarried => ?_
      refine run_ite_congr (fun _ => rfl) fun hincomplete => ?_
      rw [if_neg (by tauto), if_pos hhas] at h
      rw [carriedOut_congr h]
    · rw [if_neg (fun hboth => hhas hboth.1), if_neg hhas] at h
      rw [run_bind, run_bind]
      cases hrun : carryOut tablePartition stamp.term (Store.deleteTable J w.db name stamp) n' with
      | error e n'' => rfl
      | ok done n'' =>
        rw [hrun] at h
        dsimp only at h ⊢
        rw [carriedOut_congr h]

/-- An operation is handed to the node that is taken for the leader of the tables. -/
def HandsOver (w : Seams) (request : Request) : Prop :=
  request.term = 0 ∧ (w.leader tableKey).known ∧ !(w.leader tableKey).isLocal ∧ !request.forwarded

theorem orderSchema_of_handsOver {request : Request} (h : HandsOver w request) (n : Node) :
    orderSchema w request n =
      .ok (.error (w.forward (w.leader tableKey).node request)) (n.led w tableKey) := by
  obtain ⟨hterm, hknown, hlocal, hforwarded⟩ := h
  unfold orderSchema
  rw [if_neg (not_not.mpr hterm), run_bind, leader_eq]
  dsimp only
  rw [if_neg (by simp [hknown]), if_pos (by simpa using hlocal),
    if_neg (by simpa using hforwarded)]
  rfl

theorem orderSchema_congr {request : Request} {n : Node}
    (h : HandsOver w request → f (w.leader tableKey).node request =
      w.forward (w.leader tableKey).node request) :
    orderSchema { w with forward := f } request n = orderSchema w request n := by
  unfold orderSchema
  refine run_ite_congr (fun _ => rfl) fun hterm => ?_
  rw [run_bind, run_bind, leader_eq, leader_eq]
  refine run_ite_congr (fun _ => rfl) fun hknown => ?_
  refine run_ite_congr (fun hlocal => ?_) fun _ => rfl
  refine run_ite_congr (fun _ => rfl) fun hforwarded => ?_
  have hsame := h ⟨not_not.mp hterm, by simpa using hknown, hlocal, by simpa using hforwarded⟩
  dsimp only at hsame ⊢
  rw [hsame]

/-- Where an operation is handed over, what is sent on is what it is handed over as. -/
theorem orderSchema_congr_of_answers {request : Request} {n : Node}
    {rest : Ordering → Node → List Hop}
    (h : Answers w f (match orderSchema w request n with
      | .ok (.ok order) n' => rest order n'
      | _ => orderSent w request)) :
    orderSchema { w with forward := f } request n = orderSchema w request n := by
  refine orderSchema_congr fun hover => ?_
  rw [orderSchema_of_handsOver hover] at h
  dsimp only at h
  have hsent : orderSent w request = [((w.leader tableKey).node, request)] := if_pos hover
  rw [hsent] at h
  exact h _ (List.mem_singleton.mpr rfl)

theorem createTable_congr {request : Request} {name : Bytes} {n : Node}
    (h : Answers w f (createSent J w request name n)) :
    createTable J { w with forward := f } request name n = createTable J w request name n := by
  unfold createSent at h
  unfold createTable
  cases hbody : parseBody J request.body with
  | none => rfl
  | some body =>
    rw [hbody] at h
    dsimp only at h ⊢
    rw [run_bind, run_bind, orderSchema_congr_of_answers h]
    cases horder : orderSchema w request n with
    | error e n' => rfl
    | ok order n' =>
      rw [horder] at h
      cases order with
      | error answer => rfl
      | ok order => exact createOrdered_congr h

theorem deleteTable_congr {request : Request} {name : Bytes} {n : Node}
    (h : Answers w f (deleteSent J w request name n)) :
    deleteTable J { w with forward := f } request name n = deleteTable J w request name n := by
  unfold deleteSent at h
  unfold deleteTable
  rw [run_bind, run_bind, orderSchema_congr_of_answers h]
  cases horder : orderSchema w request n with
  | error e n' => rfl
  | ok order n' =>
    rw [horder] at h
    cases order with
    | error answer => rfl
    | ok order => exact deleteOrdered_congr h

theorem scanRecords_congr {request : Request} {name : Bytes} {n : Node}
    (h : Answers w f (scanSent w request name n)) :
    scanRecords J { w with forward := f } request name n = scanRecords J w request name n := by
  unfold scanSent at h
  unfold scanRecords
  refine run_ite_congr (fun _ => rfl) fun halone => ?_
  rw [if_neg halone] at h
  rw [run_bind_get, run_bind_get]
  refine run_ite_congr (fun _ => rfl) fun hhas => ?_
  rw [if_neg hhas] at h
  cases hnamed : Scan.readPartition request.query with
  | none => rfl
  | some named =>
    rw [hnamed] at h
    dsimp only at h ⊢
    refine run_ite_congr (fun _ => rfl) fun hwhole => ?_
    refine run_ite_congr (fun hnodes => ?_) fun _ => rfl
    rw [if_neg (by simpa using hwhole)] at h
    rw [readRecord_congr h]

theorem routeTable_congr {request : Request} {name : Bytes} {n : Node}
    (h : Answers w f (routeTableSent J w request name n)) :
    routeTable J { w with forward := f } request name n = routeTable J w request name n := by
  unfold routeTableSent at h
  unfold routeTable
  refine run_ite_congr (fun hput => ?_) fun hput => ?_
  · rw [if_pos hput] at h
    exact createTable_congr h
  · rw [if_neg hput] at h
    refine run_ite_congr (fun hdelete => ?_) fun _ => rfl
    rw [if_pos hdelete] at h
    exact deleteTable_congr h

theorem routeKeys_congr {request : Request} {n : Node}
    (h : Answers w f (routeKeysSent w request n)) :
    routeKeys J { w with forward := f } request n = routeKeys J w request n := by
  unfold routeKeysSent at h
  unfold routeKeys
  match hpath : request.path with
  | [] | [_] | [_, _] => rfl
  | table :: name :: key :: rest =>
    rw [hpath] at h
    dsimp only at h ⊢
    refine run_ite_congr (fun _ => rfl) fun hroute => ?_
    rw [if_neg hroute] at h
    match rest with
    | [] =>
      refine run_ite_congr (fun _ => rfl) fun hverb => ?_
      dsimp only at h
      rw [if_neg hverb] at h
      exact scanRecords_congr h
    | [_] | [_, _] => exact record_congr h
    | _ :: _ :: _ :: _ => rfl

/-- **Nothing but what is sent on is asked**: a route answers alike, and leaves its node alike,
where that is answered alike. -/
theorem routeUnderTable_congr {request : Request} {n : Node}
    (h : Answers w f (sentOn J w request n)) :
    routeUnderTable J { w with forward := f } request n = routeUnderTable J w request n := by
  unfold sentOn at h
  unfold routeUnderTable
  match hpath : request.path with
  | [table, name] =>
    rw [hpath] at h
    dsimp only at h ⊢
    refine run_ite_congr (fun htable => ?_) fun _ => rfl
    rw [if_pos htable] at h
    exact routeTable_congr h
  | [] | [_] | _ :: _ :: _ :: _ =>
    rw [hpath] at h
    exact routeKeys_congr h

end Congr

end Node

end AsyncDatabase
