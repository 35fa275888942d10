import AsyncDatabase.Library.Chains
import AsyncDatabase.Library.JsonText
import AsyncDatabase.Repository.Counting
import AsyncDatabase.Router.Forwarder
import AsyncDatabase.Router.Sent

/-!
# Requests that are passed on

What a client's request makes the nodes send each other, where each node has beliefs of its own
about who leads what and who holds what. `settles_iff` says of which beliefs it is that a request is
passed on twice at the most, and that what has been ordered in a term is not passed on at all.
-/

namespace AsyncDatabase

open Bytes (ascii)
open Chains Throwing

/-- What a node takes the cluster for while a request is handled. -/
structure Beliefs where
  leader : Bytes → Leadership := fun _ => {}
  replicas : Bytes → Placement := fun _ => {}
  copiesOf : Partition → Placement := fun _ => {}
  peers : List Bytes := []

/-- What else a node handles a request with. -/
structure Standing where
  node : Node
  db : Database := {}
  claimed : Bytes → Bool := fun _ => false
  isAlone : Bool := false
  forward : Bytes → Request → Response := fun _ _ => emptyResponse 204
  instanceName : Bytes := []

def Beliefs.seams (b : Beliefs) (s : Standing) : Seams where
  db := s.db
  leader := b.leader
  claimed := s.claimed
  replicas := b.replicas
  copiesOf := b.copiesOf
  peers := b.peers
  isAlone := s.isAlone
  forward := s.forward
  instanceName := s.instanceName

@[simp] theorem Beliefs.leader_seams (b : Beliefs) (s : Standing) :
    (b.seams s).leader = b.leader := rfl

/-- What a node believes of one operation: whether it is the one to order it, the node to hand it to
where it is not, the term it orders in, and where what it orders goes. -/
structure View where
  orders : Bool
  asked : List Bytes
  term : ℤ
  onward : List Bytes

/-- What an operation that is ordered is about: a record, or the tables. -/
inductive Subject where
  | record (key : Bytes)
  | tables

/-- A client can ask for it. -/
def Subject.IsNamed : Subject → Prop
  | .record key => key ≠ [] ∧ ∃ record, Record.parseKey key = .ok record
  | .tables => True

/-- What a request asks for, where that is an operation that is ordered. -/
def Request.subject (request : Request) : Option Subject :=
  match request.path with
  | [_, _] => if request.method = .put ∨ request.method = .delete then some .tables else none
  | [_, _, _, partition] =>
    if request.method = .put then some (.record (Record.composeKey partition [])) else none
  | [_, _, _, partition, sort] =>
    if request.method = .put then some (.record (Record.composeKey partition sort)) else none
  | _ => none

/-- What a node believes of an operation. -/
def Beliefs.view (b : Beliefs) : Subject → View
  | .record key => {
      orders := (b.leader key).isLocal
      asked := if (b.leader key).known then [(b.leader key).node] else []
      term := (b.leader key).term
      onward := (b.replicas key).nodes }
  | .tables => {
      orders := (b.leader tableKey).known && (b.leader tableKey).isLocal
      asked := if (b.leader tableKey).known then [(b.leader tableKey).node] else []
      term := (b.leader tableKey).term
      onward := b.peers }

namespace Node

variable {J : JsonCodec} {b : Beliefs} {s : Standing} {request : Request} {n : Node} {hop : Hop}

/-! ### What is sent on -/

/-- An operation goes on in two ways: as it came, to the node that is taken for the one to order it,
and ordered, in the term of the node that ordered it. -/
inductive PassedOn (v : View) (request : Request) : Hop → Prop
  | handed {node : Bytes} (hforwarded : request.forwarded = false) (horders : v.orders = false)
    (hnode : node ∈ v.asked) : PassedOn v request (node, request)
  | ordered {node : Bytes} {count : ℕ} (horders : v.orders = true)
    (hterm : request.forwarded = true → request.term = 0) (hnode : node ∈ v.onward) :
    PassedOn v request (node, request.carried v.term count)

theorem mem_readSent {w : Seams} {nodes : List Bytes} (h : hop ∈ readSent w request nodes) :
    hop.2 = request := by
  induction nodes with
  | nil => exact absurd h List.not_mem_nil
  | cons replica replicas ih =>
    rw [readSent, List.mem_cons] at h
    rcases h with rfl | h
    · rfl
    · split_ifs at h
      · exact absurd h List.not_mem_nil
      · exact ih h

/-- A write that is ordered is stamped in the term of the leadership it is ordered in. -/
theorem term_of_orderWrite {w : Seams} {name : Bytes} {record stamped : Record} {lead : Leadership}
    {n' : Node} (h : orderWrite w name record lead n = .ok stamped n') :
    stamped.stamp.term = lead.term := by
  unfold orderWrite at h
  rw [run_bind] at h
  cases hcount : onStore (Store.nextCount w.db) n with
  | error e mid =>
    rw [hcount] at h
    cases h
  | ok count mid =>
    rw [hcount] at h
    dsimp only at h
    split_ifs at h
    · rw [run_bind] at h
      split at h <;> cases h
      rfl
    · cases h
      rfl

theorem passedOn_of_mem_leadSent {name key : Bytes} {record : Record} (hkey : record.key = key)
    (horders : (b.leader key).isLocal = true) (hterm : request.forwarded = true → request.term = 0)
    (h : hop ∈ leadSent (b.seams s) request name record (b.leader key) n) :
    PassedOn (b.view (.record key)) request hop := by
  unfold leadSent at h
  split at h
  · next stamped n' hrun =>
    obtain ⟨node, hnode, rfl⟩ := List.mem_map.mp h
    rw [term_of_orderWrite hrun]
    exact .ordered (v := b.view (.record key)) horders hterm (hkey ▸ hnode)
  · exact absurd h List.not_mem_nil

/-- A record that is written has a key a client may name. -/
theorem exists_parseKey_of_parseRequest {partition sort : Bytes} {record : Record}
    (h : parseRequest request partition sort = .ok record) :
    ∃ parsed, Record.parseKey (Record.composeKey partition sort) = .ok parsed := by
  unfold parseRequest at h
  dsimp only at h
  split_ifs at h
  · unfold Record.parseRecord at h
    split at h
    · cases h
    · next parsed hparsed => exact ⟨parsed, hparsed⟩
  · exact ⟨record, h⟩

/-- What a request for a record makes its node send on. -/
theorem mem_recordSent {name partition sort : Bytes}
    (h : hop ∈ recordSent (b.seams s) request name partition sort n) :
    (request.method ≠ .put ∧ request.forwarded = false ∧ hop.2 = request) ∨
      (request.method = .put ∧
        (∃ record, Record.parseKey (Record.composeKey partition sort) = .ok record) ∧
        PassedOn (b.view (.record (Record.composeKey partition sort))) request hop) := by
  unfold recordSent at h
  by_cases hforwarded : request.forwarded = true
  · rw [if_pos hforwarded] at h
    obtain ⟨-, h⟩ := List.mem_ite_nil_left.mp h
    cases hparse : parseRequest request partition sort with
    | error refused =>
      rw [hparse] at h
      exact absurd h List.not_mem_nil
    | ok record =>
      rw [hparse] at h
      obtain ⟨hwrite, h⟩ := List.mem_ite_nil_left.mp h
      obtain ⟨hlocal, h⟩ := List.mem_ite_nil_left.mp h
      -- a write that was sent on once goes on where this node leads its key alone
      have hkey := key_of_parseRequest hparse
      have hput : request.method = .put ∧ request.term = 0 := by tauto
      rw [hkey] at hlocal h
      exact Or.inr ⟨hput.1, exists_parseKey_of_parseRequest hparse,
        passedOn_of_mem_leadSent hkey (by simpa using hlocal) (fun _ => hput.2) h⟩
  · rw [if_neg hforwarded] at h
    have hclient : request.forwarded = false := by simpa using hforwarded
    obtain ⟨-, h⟩ := List.mem_ite_nil_left.mp h
    cases hparse : parseRequest request partition sort with
    | error refused =>
      rw [hparse] at h
      exact absurd h List.not_mem_nil
    | ok record =>
      rw [hparse] at h
      obtain ⟨-, h⟩ := List.mem_ite_nil_left.mp h
      obtain ⟨-, h⟩ := List.mem_ite_nil_left.mp h
      have hkey := key_of_parseRequest hparse
      by_cases hread : request.method ≠ .put
      · -- a read is passed on as it is
        rw [if_pos hread] at h
        refine Or.inl ⟨hread, hclient, ?_⟩
        dsimp only at h
        split at h
        · exact mem_readSent h
        · split at h
          · exact mem_readSent h
          · exact absurd h List.not_mem_nil
      · rw [if_neg hread, hkey] at h
        refine Or.inr ⟨not_not.mp hread, exists_parseKey_of_parseRequest hparse, ?_⟩
        dsimp only at h
        split at h
        · next hlocal =>
          exact passedOn_of_mem_leadSent hkey hlocal (fun hno => absurd hno hforwarded) h
        · next hlocal =>
          obtain ⟨hknown, h⟩ := List.mem_ite_nil_left.mp h
          rw [List.mem_singleton.mp h]
          have horders : (b.leader (Record.composeKey partition sort)).isLocal = false := by
            simpa using hlocal
          -- a write goes to the one node that leads its key
          refine .handed hclient horders ?_
          have hasked : (b.view (.record (Record.composeKey partition sort))).asked =
              [(b.leader (Record.composeKey partition sort)).node] :=
            if_pos (by simpa using hknown)
          rw [hasked]
          exact List.mem_singleton.mpr rfl

theorem mem_orderSent (h : hop ∈ orderSent (b.seams s) request) :
    PassedOn (b.view .tables) request hop := by
  obtain ⟨⟨-, hknown, hlocal, hforwarded⟩, h⟩ := List.mem_ite_nil_right.mp h
  rw [List.mem_singleton.mp h]
  have hlead : (b.leader tableKey).known = true ∧ (b.leader tableKey).isLocal = false :=
    ⟨hknown, by simpa using hlocal⟩
  refine .handed (by simpa using hforwarded) ?_ ?_
  · rw [Beliefs.view, hlead.2, Bool.and_false]
  · rw [Beliefs.view, if_pos hlead.1]
    exact List.mem_singleton.mpr rfl

/-- What goes to the peers of a node went there from the node that orders the tables. -/
theorem passedOn_of_mem_carriedSent {order : Ordering} {stamp : Version} {n' : Node}
    (horder : orderSchema (b.seams s) request n = .ok (.ok order) n')
    (h : hop ∈ carriedSent request order stamp) : PassedOn (b.view .tables) request hop := by
  obtain ⟨node, hnode, rfl⟩ := List.mem_map.mp h
  rcases orderSchema_cases (b.seams s) request n with
    ⟨-, -, hrun⟩ | ⟨hterm, hknown, hlocal, hrun⟩ | ⟨-, answer, mid, hrun, -⟩
  · rw [horder] at hrun
    cases hrun
    exact absurd hnode List.not_mem_nil
  · rw [horder] at hrun
    cases hrun
    refine .ordered (v := (b.view .tables)) ?_ (fun _ => hterm) hnode
    exact Bool.and_eq_true_iff.mpr ⟨hknown, hlocal⟩
  · rw [horder] at hrun
    cases hrun

theorem mem_createSent {name : Bytes} (h : hop ∈ createSent J (b.seams s) request name n) :
    PassedOn (b.view .tables) request hop := by
  unfold createSent at h
  split at h
  · exact absurd h List.not_mem_nil
  · split at h
    · next order n' horder =>
      unfold createOrderedSent at h
      split at h
      · exact absurd h List.not_mem_nil
      · split at h
        · exact absurd h List.not_mem_nil
        · split at h
          · obtain ⟨-, h⟩ := List.mem_ite_nil_left.mp h
            exact passedOn_of_mem_carriedSent horder h
          · split at h
            · exact absurd h List.not_mem_nil
            · exact passedOn_of_mem_carriedSent horder h
    · exact mem_orderSent h

theorem mem_deleteSent {name : Bytes} (h : hop ∈ deleteSent J (b.seams s) request name n) :
    PassedOn (b.view .tables) request hop := by
  unfold deleteSent at h
  split at h
  · next order n' horder =>
    unfold deleteOrderedSent at h
    split at h
    · exact absurd h List.not_mem_nil
    · obtain ⟨-, h⟩ := List.mem_ite_nil_left.mp h
      split at h
      · exact passedOn_of_mem_carriedSent horder h
      · split at h
        · exact absurd h List.not_mem_nil
        · exact passedOn_of_mem_carriedSent horder h
  · exact mem_orderSent h

theorem mem_scanSent {name : Bytes} (h : hop ∈ scanSent (b.seams s) request name n) :
    request.forwarded = false ∧ hop.2 = request := by
  obtain ⟨-, h⟩ := List.mem_ite_nil_left.mp h
  obtain ⟨-, h⟩ := List.mem_ite_nil_left.mp h
  split at h
  · exact absurd h List.not_mem_nil
  · dsimp only at h
    obtain ⟨-, h⟩ := List.mem_ite_nil_left.mp h
    refine ⟨?_, mem_readSent h⟩
    by_contra hforwarded
    rw [if_pos (by simpa using hforwarded)] at h
    exact absurd h List.not_mem_nil

/-- A request for what is not ordered is passed on by a client's node alone, and as it came; one for
what is ordered goes on in one of the two ways. -/
theorem mem_sentOn (hpath : [] ∉ request.path) (h : hop ∈ sentOn J (b.seams s) request n) :
    (request.subject = none ∧ request.forwarded = false ∧ hop.2 = request) ∨
      ∃ subject, request.subject = some subject ∧ subject.IsNamed ∧
        PassedOn (b.view subject) request hop := by
  unfold sentOn at h
  unfold Request.subject
  match hnamed : request.path with
  | [] | [_] =>
    simp only [routeKeysSent, hnamed] at h
    exact absurd h List.not_mem_nil
  | [table, name] =>
    rw [hnamed] at h
    obtain ⟨-, h⟩ := List.mem_ite_nil_right.mp h
    unfold routeTableSent at h
    dsimp only
    split_ifs at h with hput hdelete
    · exact Or.inr ⟨_, if_pos (Or.inl hput), trivial, mem_createSent h⟩
    · exact Or.inr ⟨_, if_pos (Or.inr hdelete), trivial, mem_deleteSent h⟩
    · exact absurd h List.not_mem_nil
  | table :: name :: key :: rest =>
    rw [hnamed] at h hpath
    unfold routeKeysSent at h
    rw [hnamed] at h
    obtain ⟨-, h⟩ := List.mem_ite_nil_left.mp h
    have hrecord : ∀ partition sort, partition ∈ rest →
        hop ∈ recordSent (b.seams s) request name partition sort n →
        (request.method ≠ .put ∧ request.forwarded = false ∧ hop.2 = request) ∨
          (request.method = .put ∧ (Subject.record (Record.composeKey partition sort)).IsNamed ∧
            PassedOn (b.view (.record (Record.composeKey partition sort))) request hop) := by
      intro partition sort hmem hsent
      -- a path without empty segments names a key that is not empty
      refine (mem_recordSent hsent).imp_right fun ⟨hput, hkey, hpassed⟩ =>
        ⟨hput, ⟨?_, hkey⟩, hpassed⟩
      intro hempty
      have hpartition : partition = [] := by
        unfold Record.composeKey at hempty
        split_ifs at hempty
        · exact hempty
        · simp at hempty
      subst hpartition
      exact hpath (List.mem_cons_of_mem _ (List.mem_cons_of_mem _ (List.mem_cons_of_mem _ hmem)))
    match rest with
    | [] =>
      obtain ⟨-, h⟩ := List.mem_ite_nil_left.mp h
      exact Or.inl ⟨rfl, mem_scanSent h⟩
    | [partition] =>
      rcases hrecord partition [] List.mem_cons_self h with ⟨hread, hsame⟩ | ⟨hput, hpassed⟩
      · exact Or.inl ⟨if_neg hread, hsame⟩
      · exact Or.inr ⟨_, if_pos hput, hpassed⟩
    | [partition, sort] =>
      rcases hrecord partition sort List.mem_cons_self h with ⟨hread, hsame⟩ | ⟨hput, hpassed⟩
      · exact Or.inl ⟨if_neg hread, hsame⟩
      · exact Or.inr ⟨_, if_pos hput, hpassed⟩
    | _ :: _ :: _ :: _ => exact absurd h List.not_mem_nil

end Node

/-! ### What a client's request causes -/

section Caused

variable (J : JsonCodec) (B : Bytes → Beliefs) (W : List Hop → Standing) (start : Bytes)
  (request : Request)

/-- The node that a chain of requests sent on has come to, the last of them first. -/
def holder : List Hop → Bytes
  | [] => start
  | hop :: _ => hop.1

/-- What that node is asked. -/
def asked : List Hop → Request
  | [] => request
  | hop :: _ => hop.2.received

/-- What that node sends on. Each request is handled in a standing of its own. -/
def causes (chain : List Hop) : List Hop :=
  Node.sentOn J ((B (holder start chain)).seams (W chain)) (asked request chain) (W chain).node

end Caused

/-- **A request cannot bounce**: whatever a client asks of any node makes finitely many requests go
on, in chains of two at the most, and a node that was sent a read, or what was ordered in a term,
sends nothing on. -/
structure Settles (J : JsonCodec) (B : Bytes → Beliefs) : Prop where
  finite : ∀ (W : List Hop → Standing) (start : Bytes) (request : Request), [] ∉ request.path →
    {chain | Grown (causes J B W start request) chain}.Finite
  short : ∀ (W : List Hop → Standing) (start : Bytes) (request : Request), [] ∉ request.path →
    ∀ chain, Grown (causes J B W start request) chain → chain.length ≤ 2
  stops : ∀ (node : Bytes) (s : Standing) (request : Request), [] ∉ request.path →
    request.forwarded = true → request.method = .get ∨ request.method = .head ∨ request.term ≠ 0 →
    Node.sentOn J ((B node).seams s) request s.node = []

/-- The node hands an operation on without a term: as it came, to the node it takes for the leader,
or ordered in no term. -/
def View.HandsOn (v : View) (node : Bytes) : Prop :=
  (v.orders = false ∧ node ∈ v.asked) ∨ (v.orders = true ∧ v.term = 0 ∧ node ∈ v.onward)

/-- An operation that was handed on reaches a node that orders it in no term and sends it to one
that orders it once more. -/
def Relayed (v : Bytes → View) : Prop :=
  ∃ first second third, (v first).HandsOn second ∧
    (v second).orders = true ∧ (v second).term = 0 ∧ third ∈ (v second).onward ∧
    (v third).orders = true ∧ (v third).onward ≠ []

/-- Some operation that a client can ask for is relayed. -/
def Relays (B : Bytes → Beliefs) : Prop :=
  ∃ subject : Subject, subject.IsNamed ∧ Relayed fun node => (B node).view subject

section Chain

variable {J : JsonCodec} {B : Bytes → Beliefs} {W : List Hop → Standing} {start : Bytes}
  {request : Request}

theorem subject_received (request : Request) : request.received.subject = request.subject := rfl

theorem path_of_passedOn {v : View} {hop : Hop} (h : Node.PassedOn v request hop) :
    hop.2.path = request.path ∧ hop.2.subject = request.subject := by
  cases h with
  | handed => exact ⟨rfl, rfl⟩
  | ordered => exact ⟨rfl, rfl⟩

/-- Wherever a chain has come to, what is asked for is what the client asked for. -/
theorem asked_eq (hpath : [] ∉ request.path) {chain : List Hop}
    (h : Grown (causes J B W start request) chain) :
    (asked request chain).path = request.path ∧
    (asked request chain).subject = request.subject := by
  induction h with
  | nil => exact ⟨rfl, rfl⟩
  | @cons hop chain _ hhop ih =>
    have hpath' : [] ∉ (asked request chain).path := by
      rw [ih.1]
      exact hpath
    rcases Node.mem_sentOn hpath' hhop with ⟨-, -, heq⟩ | ⟨subject, -, -, hpassed⟩
    · rw [← ih.1, ← ih.2, ← heq]
      exact ⟨rfl, subject_received _⟩
    · obtain ⟨hsame, hsubject⟩ := path_of_passedOn hpassed
      exact ⟨hsame.trans ih.1, hsubject.trans ih.2⟩

/-- A node that a request was sent on to passes it on only as one that orders it, and only where it
came without a term. -/
theorem passedOn_of_received (hpath : [] ∉ request.path) {b : Beliefs} {s : Standing} {n : Node}
    {hop : Hop} (hforwarded : request.forwarded = true)
    (h : hop ∈ Node.sentOn J (b.seams s) request n) :
    request.term = 0 ∧ ∃ subject, request.subject = some subject ∧ subject.IsNamed ∧
      (b.view subject).orders = true ∧ hop.1 ∈ (b.view subject).onward ∧
      hop.2.term = (b.view subject).term := by
  rcases Node.mem_sentOn hpath h with ⟨-, hclient, -⟩ | ⟨subject, hsubject, hnamed, hpassed⟩
  · rw [hclient] at hforwarded
    cases hforwarded
  · cases hpassed with
    | handed hclient =>
      rw [hclient] at hforwarded
      cases hforwarded
    | ordered horders hterm hnode =>
      exact ⟨hterm hforwarded, subject, hsubject, hnamed, horders, hnode, rfl⟩

/-- What is on its way without a term was handed on so. -/
theorem handsOn_of_passedOn {v : View} {hop : Hop} (h : Node.PassedOn v request hop)
    (hterm : hop.2.term = 0) : v.HandsOn hop.1 := by
  cases h with
  | handed _ horders hnode => exact Or.inl ⟨horders, hnode⟩
  | ordered horders _ hnode => exact Or.inr ⟨horders, hterm, hnode⟩

/-- A chain of three has relayed what it is about. -/
theorem relays_of_grown (hpath : [] ∉ request.path) {first second third : Hop}
    (h : Grown (causes J B W start request) [third, second, first]) : Relays B := by
  obtain ⟨hsecond, hthird⟩ := grown_cons_iff.mp h
  obtain ⟨hfirst, hsecond'⟩ := grown_cons_iff.mp hsecond
  obtain ⟨-, hfirst'⟩ := grown_cons_iff.mp hfirst
  have hpaths : ∀ {chain : List Hop}, Grown (causes J B W start request) chain →
      [] ∉ (asked request chain).path := by
    intro chain hchain
    rw [(asked_eq hpath hchain).1]
    exact hpath
  obtain ⟨hterm, subject, hsubject, hnamed, horders, hnode, hcarried⟩ :=
    passedOn_of_received (hpaths hfirst) rfl hsecond'
  obtain ⟨hterm', subject', hsubject', -, horders', hnode', -⟩ :=
    passedOn_of_received (hpaths hsecond) rfl hthird
  have hsame : some subject' = some subject := by
    rw [← hsubject, ← hsubject', (asked_eq hpath hfirst).2, (asked_eq hpath hsecond).2]
  cases hsame
  rcases Node.mem_sentOn hpath hfirst' with ⟨hnone, -⟩ | ⟨subject'', hsubject'', -, hpassed⟩
  · rw [(asked_eq hpath hfirst).2] at hsubject
    have hroot : request.subject = none := hnone
    rw [hroot] at hsubject
    cases hsubject
  · have hsame : some subject'' = some subject :=
      hsubject''.symm.trans ((asked_eq hpath hfirst).2.symm.trans hsubject)
    cases hsame
    exact ⟨subject, hnamed, start, first.1, second.1, handsOn_of_passedOn hpassed hterm, horders,
      hcarried.symm.trans hterm', hnode, horders', List.ne_nil_of_mem hnode'⟩

theorem method_of_subject {subject : Subject} (h : request.subject = some subject) :
    request.method = .put ∨ request.method = .delete := by
  unfold Request.subject at h
  split at h
  · obtain ⟨hmethod, -⟩ := Option.ite_none_right_eq_some.mp h
    exact hmethod
  · obtain ⟨hput, -⟩ := Option.ite_none_right_eq_some.mp h
    exact Or.inl hput
  · obtain ⟨hput, -⟩ := Option.ite_none_right_eq_some.mp h
    exact Or.inl hput
  · cases h

/-- Where nothing is relayed, requests settle. -/
theorem settles_of_not_relays (h : ¬Relays B) : Settles J B := by
  have hshort : ∀ (W : List Hop → Standing) (start : Bytes) (request : Request),
      [] ∉ request.path → ∀ chain, Grown (causes J B W start request) chain → chain.length ≤ 2 := by
    intro W start request hpath chain hchain
    refine length_le_of_forall (n := 2) (fun long hlong hthree => h ?_) hchain
    match long, hthree with
    | [third, second, first], _ => exact relays_of_grown hpath hlong
  refine ⟨fun W start request hpath => Grown.finite (hshort W start request hpath), hshort, ?_⟩
  intro node s request hpath hforwarded hkind
  rw [List.eq_nil_iff_forall_not_mem]
  intro hop hhop
  obtain ⟨hterm, subject, hsubject, -⟩ := passedOn_of_received hpath hforwarded hhop
  have hmethod := method_of_subject hsubject
  rcases hkind with hget | hhead | hcarried
  · rw [hget] at hmethod
    simp at hmethod
  · rw [hhead] at hmethod
    simp at hmethod
  · exact hcarried hterm

end Chain

/-! ### Beliefs in which a request is relayed -/

section Relayed

variable {J : JsonCodec} {b : Beliefs}

/-- A node that has a table and has written nothing into it. -/
def nodeWithTable : Node where
  store := {
    disk := { Disk.fresh with families := Disk.fresh.families.insert (ascii "t") ∅ }
    tables := (∅ : Schema).create ⟨ascii "t", []⟩ ⟨1, 1⟩ }

/-- A client's request for an operation. -/
def requestFor : Subject → Request
  | .record key => { method := .put, path := [ascii "table", ascii "t", ascii "key", key] }
  | .tables => { method := .delete, path := [ascii "table", ascii "u"] }

theorem path_requestFor {subject : Subject} (h : subject.IsNamed) :
    [] ∉ (requestFor subject).path := by
  cases subject with
  | record key =>
    have hwords : ascii "table" ≠ [] ∧ ascii "t" ≠ [] ∧ ascii "key" ≠ [] := by decide
    simp [requestFor, hwords, eq_comm, h.1]
  | tables => exact (by decide)

/-- Counts are handed out where the database does what it is asked. -/
theorem nextCount_ok (s : Store) : ∃ count t, Store.nextCount {} s = .ok count t := by
  unfold Store.nextCount
  rw [run_bind_get]
  split_ifs with hspent
  · exact ⟨_, _, rfl⟩
  · exact ⟨_, _, rfl⟩

/-- A node that has the table orders what is written into it. -/
theorem orderWrite_ok {n : Node} {name : Bytes} {family : Family} (w : Seams) (hdb : w.db = {})
    (hfamily : n.store.disk.families[name]? = some family) (record : Record) (lead : Leadership) :
    ∃ stamped n', Node.orderWrite w name record lead n = .ok stamped n' := by
  unfold Node.orderWrite
  obtain ⟨count, t, hcount⟩ := nextCount_ok n.store
  have hsame := Store.sameTables_nextCount {} n.store
  rw [hcount] at hsame
  rw [run_bind, Node.onStore, hdb, hcount]
  dsimp only
  split_ifs
  · have hwrite := Store.writeRecord_eq (s := t) (hsame.families ▸ hfamily)
      { record with stamp := ⟨lead.term, count⟩ }
    rw [run_bind, Node.carryOut, run_bind, Node.onStore, hwrite]
    exact ⟨_, _, rfl⟩
  · exact ⟨_, _, rfl⟩

theorem parseRequest_of_named {key : Bytes} (hkey : ∃ record, Record.parseKey key = .ok record)
    (request : Request) (hmethod : request.method = .put) (hbody : request.body = []) :
    ∃ record, Node.parseRequest request key [] = .ok record := by
  obtain ⟨parsed, hparsed⟩ := hkey
  have hcompose : Record.composeKey key [] = key := if_pos rfl
  refine ⟨Record.validRecord key [], ?_⟩
  rw [Node.parseRequest, if_pos hmethod, hcompose, hbody, Record.parseRecord, hparsed]
  rfl

/-- What a node that leads a record sends on. -/
theorem mem_leadSent {key : Bytes} {record : Record} (hkey : record.key = key) {node : Bytes}
    (hnode : node ∈ (b.replicas key).nodes) (request : Request) :
    ∃ count, (node, request.carried (b.leader key).term count) ∈
      Node.leadSent (b.seams { node := nodeWithTable }) request (ascii "t") record (b.leader key)
        nodeWithTable := by
  have hfamily : nodeWithTable.store.disk.families[ascii "t"]? = some ∅ :=
    Std.ExtTreeMap.getElem?_insert_self
  obtain ⟨stamped, n', hrun⟩ := orderWrite_ok (b.seams { node := nodeWithTable }) rfl hfamily record
    (b.leader key)
  refine ⟨stamped.stamp.count, ?_⟩
  rw [Node.leadSent, hrun, ← Node.term_of_orderWrite hrun]
  dsimp only
  exact List.mem_map.mpr ⟨node, hkey ▸ hnode, rfl⟩

theorem has_nodeWithTable : nodeWithTable.store.tables.has (ascii "t") = true ∧
    nodeWithTable.store.tables.has (ascii "u") = false := by
  decide

/-- What a node that leads the tables sends on. -/
theorem mem_deleteSent_of_orders (hknown : (b.leader tableKey).known = true)
    (hlocal : (b.leader tableKey).isLocal = true) {node : Bytes} (hnode : node ∈ b.peers)
    {request : Request} (hterm : request.term = 0) :
    ∃ count, (node, request.carried (b.leader tableKey).term count) ∈
      Node.deleteSent J (b.seams { node := nodeWithTable }) request (ascii "u") nodeWithTable := by
  -- the table is not there, so nothing is dropped and the delete is handed on all the same
  obtain ⟨count, t, hcount⟩ := nextCount_ok nodeWithTable.store
  have hsame := Store.sameTables_nextCount {} nodeWithTable.store
  rw [hcount] at hsame
  have hhas : t.tables.has (ascii "u") = false := hsame.tables ▸ has_nodeWithTable.2
  have horder : Node.orderSchema (b.seams { node := nodeWithTable }) request nodeWithTable =
      .ok (.ok { peers := b.peers, term := (b.leader tableKey).term }) nodeWithTable := by
    rw [Node.orderSchema, if_neg (not_not.mpr hterm), run_bind, Node.leader_eq]
    dsimp only [Beliefs.leader_seams]
    rw [hknown, hlocal]
    rfl
  have hstamp : Node.schemaStamp (b.seams { node := nodeWithTable }) request
      { peers := b.peers, term := (b.leader tableKey).term } nodeWithTable =
      .ok ⟨(b.leader tableKey).term, count⟩ { nodeWithTable with store := t } := by
    rw [Node.schemaStamp, if_neg (by simp), run_bind, Node.onStore]
    have hrun : Store.nextCount (b.seams { node := nodeWithTable }).db nodeWithTable.store =
        .ok count t := hcount
    rw [hrun]
    rfl
  have hwhole : ({ nodeWithTable with store := t } : Node).isIncomplete = false :=
    decide_eq_false (not_not.mpr subset_rfl)
  refine ⟨count, ?_⟩
  rw [Node.deleteSent, horder]
  dsimp only
  rw [Node.deleteOrderedSent, hstamp]
  dsimp only
  rw [hhas, hwhole, if_neg (by simp), if_pos (by simp)]
  exact List.mem_map.mpr ⟨node, hnode, rfl⟩

/-- What orders an operation without a term sends it on. -/
theorem mem_sentOn_of_orders {subject : Subject} (hnamed : subject.IsNamed)
    (horders : (b.view subject).orders = true) {node : Bytes}
    (hnode : node ∈ (b.view subject).onward)
    (request : Request) (hmethod : request.method = (requestFor subject).method)
    (hpath : request.path = (requestFor subject).path) (hbody : request.body = [])
    (hterm : request.term = 0) :
    ∃ count, (node, request.carried (b.view subject).term count) ∈
      Node.sentOn J (b.seams { node := nodeWithTable }) request nodeWithTable := by
  cases subject with
  | record key =>
    obtain ⟨record, hparse⟩ := parseRequest_of_named hnamed.2 request hmethod hbody
    have hkey : record.key = key := (Node.key_of_parseRequest hparse).trans (if_pos rfl)
    obtain ⟨count, hmem⟩ := mem_leadSent hkey hnode request
    refine ⟨count, ?_⟩
    have hroute : Node.sentOn J (b.seams { node := nodeWithTable }) request nodeWithTable =
        Node.leadSent (b.seams { node := nodeWithTable }) request (ascii "t") record (b.leader key)
          nodeWithTable := by
      have hverb : Node.isRecordVerb request.method = true := by
        rw [hmethod]
        rfl
      have hput : ¬request.method ≠ .put := not_not.mpr hmethod
      have hlocal : (b.leader key).isLocal = true := horders
      rw [Node.sentOn, hpath]
      dsimp only [requestFor]
      rw [Node.routeKeysSent, hpath]
      dsimp only [requestFor]
      rw [if_neg (by decide), Node.recordSent]
      -- a request that was sent on and one of a client come to the same here
      split_ifs
      · rw [Node.routeForwardedRecordSent, hverb, hparse]
        simp [hput, hterm, hkey, hlocal, Node.led]
        rfl
      · rw [Node.routeRecordSent, hverb, hparse]
        simp [hput, has_nodeWithTable.1, hkey, hlocal, Node.led]
        rfl
    rw [hroute]
    exact hmem
  | tables =>
    have hlead := Bool.and_eq_true_iff.mp horders
    obtain ⟨count, hmem⟩ := mem_deleteSent_of_orders (J := J) hlead.1 hlead.2 hnode hterm
    refine ⟨count, ?_⟩
    rw [Node.sentOn, hpath]
    dsimp only [requestFor]
    rw [if_pos rfl, Node.routeTableSent, hmethod]
    exact hmem

/-- What is handed to the node that is taken for the one to order it. -/
theorem mem_sentOn_of_asked {subject : Subject} (hnamed : subject.IsNamed)
    (horders : (b.view subject).orders = false) {node : Bytes}
    (hnode : node ∈ (b.view subject).asked) :
    (node, requestFor subject) ∈
      Node.sentOn J (b.seams { node := nodeWithTable }) (requestFor subject) nodeWithTable := by
  cases subject with
  | record key =>
    obtain ⟨record, hparse⟩ := parseRequest_of_named hnamed.2 (requestFor (.record key)) rfl rfl
    have hkey : record.key = key := (Node.key_of_parseRequest hparse).trans (if_pos rfl)
    have hlocal : (b.leader key).isLocal = false := horders
    obtain ⟨hknown, hnode⟩ := List.mem_ite_nil_right.mp hnode
    rw [List.mem_singleton.mp hnode]
    change _ ∈ Node.routeRecordSent (b.seams { node := nodeWithTable }) (requestFor (.record key))
      (ascii "t") key [] nodeWithTable
    have hverb : Node.isRecordVerb (requestFor (.record key)).method = true := rfl
    have hput : ¬(requestFor (.record key)).method ≠ .put := not_not.mpr rfl
    -- the node does not lead the key, so it hands the write to the one that does
    rw [Node.routeRecordSent, hverb, hparse]
    simp [hput, has_nodeWithTable.1, hkey, hlocal, hknown]
  | tables =>
    obtain ⟨hknown, hnode⟩ := List.mem_ite_nil_right.mp hnode
    have hlocal : (b.leader tableKey).isLocal = false := by
      have hand : ((b.leader tableKey).known && (b.leader tableKey).isLocal) = false := horders
      rwa [hknown, Bool.true_and] at hand
    have hover : Node.HandsOver (b.seams { node := nodeWithTable }) (requestFor .tables) :=
      ⟨rfl, hknown, by rw [Beliefs.leader_seams, hlocal]; rfl, rfl⟩
    rw [List.mem_singleton.mp hnode]
    change _ ∈ Node.deleteSent J (b.seams { node := nodeWithTable })
      (requestFor .tables) (ascii "u") nodeWithTable
    rw [Node.deleteSent, Node.orderSchema_of_handsOver hover]
    dsimp only
    have hsent : Node.orderSent (b.seams { node := nodeWithTable }) (requestFor .tables) =
        [((b.leader tableKey).node, requestFor .tables)] := if_pos hover
    rw [hsent]
    exact List.mem_singleton.mpr rfl

/-- Where an operation is relayed, some chain is longer than two. -/
theorem not_settles_of_relays {B : Bytes → Beliefs} (h : Relays B) : ¬Settles J B := by
  obtain ⟨subject, hnamed, first, second, third, hhands, horders, hterm,
    hthird, horders', honward⟩ :=
    h
  dsimp only at hhands horders hterm hthird horders' honward
  obtain ⟨fourth, hfourth⟩ := List.exists_mem_of_ne_nil _ honward
  let W : List Hop → Standing := fun _ => { node := nodeWithTable }
  have hfirst : ∃ count, (second, (requestFor subject).carried 0 count) ∈
      causes J B W first (requestFor subject) [] := by
    rcases hhands with ⟨hno, hasked⟩ | ⟨hyes, hzero, honto⟩
    · refine ⟨0, ?_⟩
      have hsame : (requestFor subject).carried 0 0 = requestFor subject := by
        cases subject <;> rfl
      rw [hsame]
      exact mem_sentOn_of_asked hnamed hno hasked
    · rw [← hzero]
      exact mem_sentOn_of_orders hnamed hyes honto (requestFor subject) rfl rfl
        (by cases subject <;> rfl) (by cases subject <;> rfl)
  obtain ⟨count, hfirst⟩ := hfirst
  obtain ⟨count', hsecond⟩ := mem_sentOn_of_orders (J := J) (b := B second)
    hnamed horders hthird ((requestFor subject).carried 0 count).received rfl rfl
    (by cases subject <;> rfl) rfl
  rw [hterm] at hsecond
  obtain ⟨count'', hthird⟩ := mem_sentOn_of_orders (J := J) (b := B third)
    hnamed horders' hfourth
    (((requestFor subject).carried 0 count).received.carried 0 count').received rfl rfl
      (by cases subject <;> rfl) rfl
  intro hsettles
  have hlong := hsettles.short W first (requestFor subject) (path_requestFor hnamed) _
    (((Grown.nil.cons hfirst).cons hsecond).cons hthird)
  simp at hlong

end Relayed

/-- **Requests settle exactly where nothing is relayed.** -/
theorem settles_iff (J : JsonCodec) (B : Bytes → Beliefs) : Settles J B ↔ ¬Relays B :=
  ⟨fun hsettles hrelays => not_settles_of_relays hrelays hsettles, settles_of_not_relays⟩

/-! ### Two nodes that lead in no term -/

/-- Two nodes that each take themselves for the leader of everything in no term, and each the other
for a copy. -/
def bothLead (node : Bytes) : Beliefs where
  leader _ := { known := true, isLocal := true, node }
  replicas _ := { nodes := if node = ascii "b" then [ascii "c"] else [ascii "b"] }

/-- A write goes to and fro between the two as often as one likes. -/
theorem bothLead_endless (J : JsonCodec) (turns : ℕ) :
    ∃ chain, chain.length = turns ∧
      Grown (causes J bothLead (fun _ => { node := nodeWithTable }) (ascii "b")
        (requestFor (.record (ascii "k")))) chain := by
  have hnamed : (Subject.record (ascii "k")).IsNamed := ⟨by decide, _, rfl⟩
  have hrun : ∀ turns : ℕ, ∃ chain, chain.length = turns ∧
      Grown (causes J bothLead (fun _ => { node := nodeWithTable }) (ascii "b")
        (requestFor (.record (ascii "k")))) chain ∧
      (asked (requestFor (.record (ascii "k"))) chain).method = .put ∧
      (asked (requestFor (.record (ascii "k"))) chain).path =
        (requestFor (.record (ascii "k"))).path ∧
      (asked (requestFor (.record (ascii "k"))) chain).body = [] ∧
      (asked (requestFor (.record (ascii "k"))) chain).term = 0 := by
    intro turns
    induction turns with
    | zero => exact ⟨[], rfl, .nil, rfl, rfl, rfl, rfl⟩
    | succ turns ih =>
      obtain ⟨chain, hlength, hchain, hmethod, hpath, hbody, hterm⟩ := ih
      obtain ⟨other, hother⟩ : ∃ other, other ∈
          ((bothLead (holder (ascii "b") chain)).view (.record (ascii "k"))).onward := by
        by_cases hb : holder (ascii "b") chain = ascii "b"
        · exact ⟨ascii "c", by simp [bothLead, Beliefs.view, hb]⟩
        · exact ⟨ascii "b", by simp [bothLead, Beliefs.view, hb]⟩
      obtain ⟨count, hmem⟩ :=
        mem_sentOn_of_orders (J := J) hnamed rfl hother _ hmethod hpath hbody hterm
      exact ⟨_ :: chain, congrArg Nat.succ hlength, hchain.cons hmem, hmethod, hpath, hbody, rfl⟩
  obtain ⟨chain, hlength, hchain, -⟩ := hrun turns
  exact ⟨chain, hlength, hchain⟩

theorem not_settles_bothLead : ¬Settles JsonText.codec bothLead := by
  intro hsettles
  obtain ⟨chain, hlength, hchain⟩ := bothLead_endless JsonText.codec 3
  have hnamed : (Subject.record (ascii "k")).IsNamed := ⟨by decide, _, rfl⟩
  have hshort := hsettles.short _ _ _ (path_requestFor hnamed) chain hchain
  omega

end AsyncDatabase
