import AsyncDatabase.Library.JsonText
import AsyncDatabase.Library.Run
import AsyncDatabase.Router.Records

/-!
# The fence of a node

What one node carries out on its own store against the terms it has accepted, over every order of
requests and every answer of `leader`. `Fenced` is what a step keeps where `LeadsCurrent` holds of
it; `never_undercut` is the rule for runs.
-/

namespace AsyncDatabase

open Bytes (ascii)
open Machine Throwing

variable (J : JsonCodec)

/-- A request one node handles. -/
inductive RequestEvent where
  | record (w : Seams) (request : Request) (name partition sort : Bytes)
  | putTable (w : Seams) (request : Request) (name : Bytes)
  | deleteTable (w : Seams) (request : Request) (name : Bytes)

namespace Node

def requestStep (n : Node) : RequestEvent → Node
  | .record w request name partition sort => after (record w request name partition sort n)
  | .putTable w request name => after (createTable J w request name n)
  | .deleteTable w request name => after (deleteTable J w request name n)

/-- What was carried out between two states of a node: each operation's partition, and the term it
was ordered in. -/
def carriedOutSince (n n' : Node) : List (Partition × ℤ) :=
  n'.done.take (n'.done.length - n.done.length)

/-- Nothing was carried out in a term older than these. -/
structure Above (floor : PartitionTerms) (n n' : Node) : Prop where
  accepted : n.accepted ≤ n'.accepted
  done : ∃ carried, n'.done = carried ++ n.done ∧
    ∀ entry ∈ carried, floor entry.1 ≤ entry.2

/-- Nothing was carried out in a term older than one accepted before. -/
abbrev Fenced (n n' : Node) : Prop := Above n.accepted n n'

end Node

/-- Where the node takes itself for the leader of what a request is about, it leads in a term no
older than these. -/
def LeadsAbove (floor : PartitionTerms) : RequestEvent → Prop
  | .record w request _ partition sort =>
    let key := Record.composeKey partition sort
    request.method = .put → (request.forwarded → request.term = 0) →
      (w.leader key).isLocal → floor (partitionOf key) ≤ (w.leader key).term
  | .putTable w request _ | .deleteTable w request _ =>
    request.term = 0 → (w.leader tableKey).known → (w.leader tableKey).isLocal →
      floor tablePartition ≤ (w.leader tableKey).term

/-- Where the node takes itself for the leader of what a request is about, it leads in a term no
older than any it has accepted there. -/
def LeadsCurrent (n : Node) : RequestEvent → Prop
  | .record w request _ partition sort =>
    let key := Record.composeKey partition sort
    request.method = .put → (request.forwarded → request.term = 0) →
      (w.leader key).isLocal → n.accepted (partitionOf key) ≤ (w.leader key).term
  | .putTable w request _ | .deleteTable w request _ =>
    request.term = 0 → (w.leader tableKey).known → (w.leader tableKey).isLocal →
      n.accepted tablePartition ≤ (w.leader tableKey).term

instance (n : Node) : DecidablePred (LeadsCurrent n)
  | .record w request _ partition sort =>
    inferInstanceAs (Decidable (request.method = .put → (request.forwarded → request.term = 0) →
      (w.leader (Record.composeKey partition sort)).isLocal →
      n.accepted (partitionOf (Record.composeKey partition sort)) ≤
        (w.leader (Record.composeKey partition sort)).term))
  | .putTable w request _ | .deleteTable w request _ =>
    inferInstanceAs (Decidable (request.term = 0 → (w.leader tableKey).known →
      (w.leader tableKey).isLocal → n.accepted tablePartition ≤ (w.leader tableKey).term))

/-! ### What a statement keeps -/

namespace Node

variable {n : Node} {floor : PartitionTerms}

theorem Above.refl (floor : PartitionTerms) (n : Node) : Above floor n n :=
  ⟨le_refl _, [], rfl, by simp⟩

theorem Above.trans {n n' n'' : Node} (h : Above floor n n') (h' : Above floor n' n'') :
    Above floor n n'' := by
  obtain ⟨carried, hdone, hterms⟩ := h.done
  obtain ⟨carried', hdone', hterms'⟩ := h'.done
  refine ⟨h.accepted.trans h'.accepted, carried' ++ carried, ?_, ?_⟩
  · rw [hdone', hdone, List.append_assoc]
  · intro entry hentry
    rcases List.mem_append.mp hentry with hentry | hentry
    · exact hterms' entry hentry
    · exact hterms entry hentry

theorem Above.lower {lower : PartitionTerms} {n n' : Node} (h : Above floor n n')
    (hle : lower ≤ floor) : Above lower n n' := by
  obtain ⟨carried, hdone, hterms⟩ := h.done
  exact ⟨h.accepted, carried, hdone, fun entry hentry => (hle entry.1).trans (hterms entry hentry)⟩

theorem Quiet.above {n n' : Node} (h : n.Quiet n') : Above floor n n' :=
  ⟨h.accepted, [], by rw [h.done]; rfl, by simp⟩

theorem Counted.above {n n' : Node} (h : n.Counted n') : Above floor n n' := by
  obtain ⟨s, -, rfl⟩ := h
  exact ⟨le_refl _, [], rfl, by simp⟩

theorem above_onStore {α : Type} (x : Action α) (n : Node) :
    Above floor n (after (onStore x n)) := by
  rw [onStore]
  cases x n.store <;> exact ⟨le_refl _, [], rfl, by simp⟩

/-- An operation ordered in a term that is not older may be carried out. -/
theorem above_carryOut {partition : Partition} {term : ℤ} (x : Action Unit)
    (h : floor partition ≤ term) : Above floor n (after (carryOut partition term x n)) := by
  rcases carryOut_cases partition term x n with ⟨s, -, hrun⟩ | ⟨e, s, -, hrun⟩
  · rw [hrun]
    exact ⟨le_refl _, [(partition, term)], rfl, by simpa using h⟩
  · rw [hrun]
    exact ⟨le_refl _, [], rfl, by simp⟩

/-- A program is above these terms where its first statement is and the rest is from wherever that
answers. -/
theorem above_bind {α β : Type} {x : Route α} {f : α → Route β} {n : Node}
    (hx : Above floor n (after (x n)))
    (hf : ∀ a n', x n = .ok a n' → Above floor n' (after (f a n'))) :
    Above floor n (after ((x >>= f) n)) := by
  rw [run_bind]
  cases hrun : x n with
  | ok a n' =>
    rw [hrun] at hx
    exact hx.trans (hf a n' hrun)
  | error e n' =>
    rw [hrun] at hx
    exact hx

theorem accept_eq {key : Bytes} {term : ℤ} (h : term ≠ 0) (n : Node) :
    accept key term n = .ok (decide (n.accepted (partitionOf key) ≤ term))
      (n.raise (partitionOf key) term) := by
  rw [accept, if_neg h]
  rfl

/-! ### The routes of a record -/

/-- A write another node ordered is carried out where the fence lets its term through. -/
theorem above_applyWrite (w : Seams) (request : Request) (name : Bytes) (record : Record)
    {n : Node} (hfloor : floor ≤ n.accepted) :
    Above floor n (after (applyWrite w request name record n)) := by
  unfold applyWrite
  split_ifs with hterm
  · exact Above.refl floor n
  · refine above_bind ?_ fun accepted n' haccept => ?_
    · rw [accept_eq hterm]
      exact (quiet_raise n _ _).above
    · rw [accept_eq hterm] at haccept
      cases haccept
      split_ifs with hle
      · refine above_bind (above_carryOut _ ?_) fun _ n' _ => Above.refl floor n'
        exact (hfloor _).trans (of_decide_eq_true hle)
      · exact Above.refl floor _

/-- A write this node orders is carried out where it leads in a term that is not older. -/
theorem above_leadWrite (w : Seams) (request : Request) (name : Bytes) (record : Record)
    {lead : Leadership} (n : Node) (h : floor (partitionOf record.key) ≤ lead.term) :
    Above floor n (after (leadWrite w request name record lead n)) := by
  unfold leadWrite
  refine above_bind (above_onStore _ n) fun count n' _ => ?_
  dsimp only
  split_ifs
  · exact above_bind (above_carryOut _ h) fun _ n' _ => Above.refl floor n'
  · exact Above.refl floor n'

theorem above_readHere (w : Seams) (name key : Bytes) (n : Node) :
    Above floor n (after (readHere w name key n)) := by
  unfold readHere
  refine above_bind (above_onStore _ n) fun value n' _ => ?_
  cases value with
  | some value => exact Above.refl floor n'
  | none =>
    dsimp only
    rw [run_bind_get]
    split_ifs <;> exact Above.refl floor n'

theorem above_lead {w : Seams} {key : Bytes} {f : Leadership → Route Response} {n : Node}
    (hfloor : floor ≤ n.accepted)
    (hf : ∀ n' : Node, floor ≤ n'.accepted → Above floor n' (after (f (w.leader key) n'))) :
    Above floor n (after ((leader w key >>= f) n)) := by
  refine above_bind ?_ fun lead n' hlead => ?_
  · rw [leader_eq]
    exact (quiet_led w n key).above
  · rw [leader_eq] at hlead
    cases hlead
    exact hf _ (hfloor.trans (quiet_led w n key).accepted)

theorem above_record {w : Seams} {request : Request} {name partition sort : Bytes}
    (hfloor : floor ≤ n.accepted) (h : LeadsAbove floor (.record w request name partition sort)) :
    Above floor n (after (record w request name partition sort n)) := by
  have hled : ∀ {record : Record}, parseRequest request partition sort = .ok record →
      request.method = .put → (request.forwarded → request.term = 0) →
      (w.leader record.key).isLocal →
      floor (partitionOf record.key) ≤ (w.leader record.key).term := by
    intro record hparse hput hterm hlocal
    rw [key_of_parseRequest hparse] at hlocal ⊢
    exact h hput hterm hlocal
  unfold record
  cases hparse : parseRequest request partition sort with
  | error refused =>
    unfold routeForwardedRecord routeRecord
    rw [hparse]
    split_ifs <;> exact Above.refl floor n
  | ok record =>
    split_ifs with hforwarded
    · unfold routeForwardedRecord
      rw [hparse]
      dsimp only
      split_ifs with _ hput hterm
      · exact Above.refl floor n
      · exact above_readHere w _ _ n
      · exact above_applyWrite w request name record hfloor
      · -- a write that was passed on is led where its leader is this node
        rw [not_not] at hput hterm
        refine above_lead hfloor fun n' hn' => ?_
        split_ifs with hlocal
        · exact above_applyWrite w request name record hn'
        · exact above_leadWrite w request name record n'
            (hled hparse hput (fun _ => hterm) (by simpa using hlocal))
    · unfold routeRecord
      rw [hparse]
      dsimp only
      by_cases hverb : (!isRecordVerb request.method) = true
      · rw [if_pos hverb]
        exact Above.refl floor n
      · rw [if_neg hverb, run_bind_get]
        split_ifs with halone hhas hput hlocal hnodes
        · exact Above.refl floor n
        · exact Above.refl floor n
        · exact Above.refl floor n
        · -- a read changes nothing
          refine above_bind (above_onStore _ n) fun value n' _ => ?_
          cases value <;> exact Above.refl floor n'
        · refine above_bind (above_onStore _ n) fun value n' _ => ?_
          cases value with
          | some value => exact Above.refl floor n'
          | none => exact above_readHere w _ _ n'
        · rw [not_not] at hput
          refine above_lead hfloor fun n' _ => ?_
          split_ifs with hlocal' hknown
          · exact above_leadWrite w request name record n'
              (hled hparse hput (fun hf => absurd hf hforwarded) hlocal')
          · exact Above.refl floor n'
          · exact Above.refl floor n'

/-! ### Runs -/

theorem Ordered.above {w : Seams} {request : Request} {mid : Node} {term : ℤ}
    (h : Ordered w request n mid term) (hfloor : floor ≤ n.accepted)
    (hlead : request.term = 0 → (w.leader tableKey).known → (w.leader tableKey).isLocal →
      floor tablePartition ≤ (w.leader tableKey).term) :
    Above floor n mid ∧ floor tablePartition ≤ term := by
  refine ⟨(h.quiet w).above, ?_⟩
  cases h with
  | carried _ hfence => exact (hfloor _).trans hfence
  | led hterm hknown hlocal => exact hlead hterm hknown hlocal

/-- **A node that leads in no older a term carries nothing out in one**, where it has accepted none
that is older. -/
theorem above_requestStep {e : RequestEvent} (hfloor : floor ≤ n.accepted)
    (h : LeadsAbove floor e) : Above floor n (n.requestStep J e) := by
  cases e with
  | record w request name partition sort => exact above_record hfloor h
  | putTable w request name =>
    rcases createTable_cases J w request name n with ⟨mid, hquiet, hcount⟩ |
      ⟨table, stamp, mid, n', hordered, hcount, -, -, -, -, heq⟩
    · exact hquiet.above.trans hcount.above
    · obtain ⟨hmid, hle⟩ := hordered.above hfloor h
      rw [requestStep, heq]
      exact (hmid.trans hcount.above).trans (above_carryOut _ hle)
  | deleteTable w request name =>
    rcases deleteTable_cases J w request name n with ⟨⟨mid, hquiet, hcount⟩, -⟩ |
      ⟨stamp, mid, n', hordered, hcount, -, -, heq⟩
    · exact hquiet.above.trans hcount.above
    · obtain ⟨hmid, hle⟩ := hordered.above hfloor h
      rw [requestStep, heq]
      exact (hmid.trans hcount.above).trans (above_carryOut _ hle)

/-- **A node that leads in no older a term than it has accepted is fenced at every step.** -/
theorem fenced_requestStep {e : RequestEvent} (h : LeadsCurrent n e) :
    n.Fenced (n.requestStep J e) := by
  refine above_requestStep J (le_refl _) ?_
  cases e <;> exact h

theorem Above.mem_carriedOutSince {n n' : Node} (h : Above floor n n') {entry : Partition × ℤ}
    (hentry : entry ∈ carriedOutSince n n') : floor entry.1 ≤ entry.2 := by
  obtain ⟨carried, hdone, hterms⟩ := h.done
  rw [carriedOutSince, hdone, List.length_append, Nat.add_sub_cancel, List.take_left'] at hentry
  · exact hterms entry hentry
  · rfl

theorem fenced_run {es : List RequestEvent}
    (h : Throughout (requestStep J) LeadsCurrent n es) : n.Fenced (run (requestStep J) n es) := by
  induction es generalizing n with
  | nil => exact Above.refl _ n
  | cons e es ih =>
    have hfirst := fenced_requestStep J h.1
    exact hfirst.trans ((ih h.2).lower hfirst.accepted)

end Node

/-- **Nothing is carried out in a term older than one that was accepted**, in a run in which the
node takes itself for the leader in no older a term than it has accepted: once a state of the run
has accepted a term for a partition, no later step carries out an operation of that partition that
was ordered in an older one. -/
theorem never_undercut (n : Node) (before between after : List RequestEvent) (e : RequestEvent)
    (h : Throughout (Node.requestStep J) LeadsCurrent n (before ++ (between ++ e :: after)))
    (partition : Partition) (term : ℤ)
    (hterm : (partition, term) ∈ Node.carriedOutSince
      (run (Node.requestStep J) n (before ++ between))
      (run (Node.requestStep J) n (before ++ between ++ [e]))) :
    (run (Node.requestStep J) n before).accepted partition ≤ term := by
  rw [throughout_append, throughout_append] at h
  obtain ⟨-, hbetween, hrest⟩ := h
  rw [run_append _ _ [e], run_append] at hterm
  have hlater := (Node.fenced_run J hbetween).accepted partition
  exact hlater.trans ((Node.fenced_requestStep J hrest.1).mem_carriedOutSince hterm)

/-! ### A stale leader that is its own -/

def keyPath (name key : Bytes) : List Bytes := [ascii "table", name, ascii "key", key]

/-- A client's write of a key, at a node that takes itself for the leader in a term. -/
def ledWrite (term : ℤ) (name key : Bytes) : RequestEvent :=
  .record (.leading term) { method := .put, path := keyPath name key } name key []

/-- A write of a key that the leader of a term stamped, carried here. -/
def carriedWrite (term : ℤ) (name key : Bytes) : RequestEvent :=
  .record {} { method := .put, path := keyPath name key, forwarded := true, term, count := 1 } name
    key []

/-- A create that the leader of the tables ordered in a term, carried here. -/
def carriedCreate (term : ℤ) (name : Bytes) : RequestEvent :=
  .putTable {}
    { method := .put, path := [ascii "table", name], forwarded := true, term, count := 1 } name

/-- A client's delete, at a node that takes itself for the leader of the tables in a term. -/
def ledDelete (term : ℤ) (name : Bytes) : RequestEvent :=
  .deleteTable (.leading term) { method := .delete, path := [ascii "table", name] } name

theorem never_undercut_carried :
    (run (Node.requestStep JsonText.codec) (Node.fresh JsonText.codec)
      [carriedCreate 1 (ascii "t"), carriedWrite 9 (ascii "t") (ascii "k")]).accepted
        (partitionOf (ascii "k")) ≤ 9 :=
  never_undercut JsonText.codec (Node.fresh JsonText.codec)
    [carriedCreate 1 (ascii "t"), carriedWrite 9 (ascii "t") (ascii "k")] [] []
    (ledWrite 9 (ascii "t") (ascii "k")) (by decide +kernel) (partitionOf (ascii "k")) 9
    (by decide +kernel)

/-- A node that has applied a write in term 9 writes one of its own in term 5, and one that was
carried a create in term 9 drops the table in term 5. -/
theorem undercut_led :
    let step := Node.requestStep JsonText.codec
    let created := run step (Node.fresh JsonText.codec) [carriedCreate 9 (ascii "t")]
    let written := step created (carriedWrite 9 (ascii "t") (ascii "k"))
    (written.accepted (partitionOf (ascii "k")) = 9 ∧
        (partitionOf (ascii "k"), (5 : ℤ)) ∈
          Node.carriedOutSince written (step written (ledWrite 5 (ascii "t") (ascii "k")))) ∧
      (created.accepted tablePartition = 9 ∧
        (tablePartition, (5 : ℤ)) ∈
          Node.carriedOutSince created (step created (ledDelete 5 (ascii "t"))) ∧
        (step created (ledDelete 5 (ascii "t"))).store.tables.has (ascii "t") = false) := by
  decide +kernel

end AsyncDatabase
