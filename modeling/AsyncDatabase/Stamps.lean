import AsyncDatabase.Fence
import AsyncDatabase.Leaders

/-!
# The version a value is stored in

A stored value begins with the version it was written in. `stored_versions` says that the version
and the value are read back, that the bytes of two stored values are ordered as their versions are,
and that no request stores a version whose bytes would not be: a negative term is accepted by no
node.
-/

namespace AsyncDatabase

open Bytes (ascii)
open Machine Throwing

/-! ### The order of versions -/

namespace Version

theorem isNewer_irrefl (v : Version) : v.isNewer v = false := by
  rw [← Bool.not_eq_true, isNewer_iff_rank_lt]
  exact lt_irrefl _

theorem isNewer_trans {u v w : Version} (h : u.isNewer v = true) (h' : v.isNewer w = true) :
    u.isNewer w = true := by
  rw [isNewer_iff_rank_lt] at *
  exact h'.trans h

theorem isNewer_trichotomous (v w : Version) : v.isNewer w = true ∨ v = w ∨ w.isNewer v = true := by
  rw [isNewer_iff_rank_lt, isNewer_iff_rank_lt, ← rank_inj]
  rcases lt_trichotomy v.rank w.rank with hlt | heq | hlt
  · exact .inr (.inr hlt)
  · exact .inr (.inl heq)
  · exact .inl hlt

end Version

/-- The bytes of two stored values are ordered as their versions. -/
theorem isNewer_composeValue {v w : Version} (hv : v.Fits) (hw : w.Fits) (hvterm : 0 ≤ v.term)
    (hwterm : 0 ≤ w.term) (x y : Bytes) :
    Record.isNewer (Record.composeValue v x) (Record.composeValue w y) = v.isNewer w := by
  have hlength : ∀ (u : Version) (z : Bytes),
    Record.versionSize ≤ (Record.composeValue u z).length := by
    intro u z
    rw [Record.length_composeValue]
    exact Nat.le_add_right _ _
  have hversion := Record.versionOf_composeValue hv x
  have hversion' := Record.versionOf_composeValue hw y
  rw [Record.isNewer_eq (hlength v x) (hlength w y), hversion, hversion']
  · rw [hversion]
    exact hvterm
  · rw [hversion']
    exact hwterm

/-! ### What a node accepts -/

/-- What happens to a node: a request, a claim its membership thread makes, and the next process. -/
inductive NodeEvent where
  | request (e : RequestEvent)
  | claimed (partition : Partition) (revision : ℤ)
  | restart

namespace Node

variable (J : JsonCodec)

def nodeStep (n : Node) : NodeEvent → Node
  | .request e => n.requestStep J e
  | .claimed partition revision => n.raise partition revision
  | .restart => n.restarted J

/-- The leaderships a request is answered with are in no negative term. -/
def LedNonneg : NodeEvent → Prop
  | .request e => LeadsAbove 0 e
  | .claimed .. | .restart => True

variable {n : Node}

theorem accepted_construct_nonneg (s : Store) : 0 ≤ (construct s).accepted := by
  intro partition
  exact le_max_left (0 : ℤ) _

/-- Any answer of a leader is above some terms that are not past those accepted. -/
theorem exists_leadsAbove (n : Node) (e : RequestEvent) :
    ∃ floor, floor ≤ n.accepted ∧ LeadsAbove floor e := by
  have hmin : ∀ term : ℤ, (fun partition => min (n.accepted partition) term) ≤ n.accepted :=
    fun term partition => min_le_left _ _
  cases e with
  | record w request name partition sort =>
    exact ⟨_, hmin (w.leader (Record.composeKey partition sort)).term,
      fun _ _ _ => min_le_right _ _⟩
  | putTable w request name | deleteTable w request name =>
    exact ⟨_, hmin (w.leader tableKey).term, fun _ _ _ => min_le_right _ _⟩

/-- No step takes what was accepted below zero. -/
theorem accepted_nodeStep_nonneg (h : 0 ≤ n.accepted) (e : NodeEvent) :
    0 ≤ (n.nodeStep J e).accepted := by
  cases e with
  | request e =>
    obtain ⟨floor, hfloor, hleads⟩ := n.exists_leadsAbove e
    exact h.trans (above_requestStep J hfloor hleads).accepted
  | claimed partition revision => exact Claimant.raiseTo_nonneg h partition revision
  | restart => exact accepted_construct_nonneg _

/-- A negative term is refused, and raises nothing. -/
theorem accept_negative (h : 0 ≤ n.accepted) (key : Bytes) {term : ℤ} (hterm : term < 0) :
    accept key term n = .ok false n := by
  have hlt : term < n.accepted (partitionOf key) := hterm.trans_le (h _)
  have hsame : n.raise (partitionOf key) term = n := by
    unfold raise
    rw [max_eq_left hlt.le, Function.update_eq_self]
  rw [accept_eq hterm.ne, hsame, decide_eq_false (not_le.mpr hlt)]

/-- Nothing was carried out in a negative term, and none was accepted. -/
structure InNonneg (n : Node) : Prop where
  accepted : 0 ≤ n.accepted
  done : ∀ entry ∈ n.done, 0 ≤ entry.2

theorem InNonneg.nodeStep (h : n.InNonneg) {e : NodeEvent} (hled : LedNonneg e) :
    (n.nodeStep J e).InNonneg := by
  refine ⟨accepted_nodeStep_nonneg J h.accepted e, ?_⟩
  cases e with
  | request e =>
    obtain ⟨carried, hdone, hterms⟩ := (above_requestStep J h.accepted hled).done
    change ∀ entry ∈ (n.requestStep J e).done, 0 ≤ entry.2
    rw [hdone]
    exact List.forall_mem_append.mpr ⟨hterms, h.done⟩
  | claimed partition revision => exact h.done
  | restart => exact fun entry hentry => absurd hentry List.not_mem_nil

end Node

/-- **The stored version is faithful and ordered.** It and the value behind it are read back, the
bytes of two stored values say which is newer as their versions do, by term and then by count, and
that is a strict order of all versions. The versions it does not hold for, those of a negative term,
no node accepts in any state it gets to, whatever it is asked and whoever leads; so none is carried
out by a node that is led in none, and no node is led in any while the revisions of etcd are not
negative. -/
theorem stored_versions (J : JsonCodec) (c : ClaimConfig) :
    (∀ (v : Version) (value : Bytes), v.Fits → 0 ≤ v.term →
      Record.versionOf (Record.composeValue v value) = v ∧
        Record.valueOf (Record.composeValue v value) = value) ∧
    (∀ (v w : Version) (x y : Bytes), v.Fits → w.Fits → 0 ≤ v.term → 0 ≤ w.term →
      (Record.isNewer (Record.composeValue v x) (Record.composeValue w y) = true ↔
        w.term < v.term ∨ v.term = w.term ∧ w.count < v.count) ∧
      Record.isNewer (Record.composeValue v x) (Record.composeValue w y) = v.isNewer w) ∧
    ((∀ v : Version, v.isNewer v = false) ∧
      (∀ u v w : Version, u.isNewer v = true → v.isNewer w = true → u.isNewer w = true) ∧
      ∀ v w : Version, v.isNewer w = true ∨ v = w ∨ w.isNewer v = true) ∧
    (∀ (es : List NodeEvent) (key : Bytes) (term : ℤ), term < 0 →
      Node.accept key term (run (Node.nodeStep J) (Node.fresh J) es) =
        .ok false (run (Node.nodeStep J) (Node.fresh J) es)) ∧
    (∀ es : List NodeEvent, Throughout (Node.nodeStep J)
      (fun _ e => Node.LedNonneg e) (Node.fresh J) es →
      ∀ entry ∈ (run (Node.nodeStep J) (Node.fresh J) es).done, 0 ≤ entry.2) ∧
    ∀ (es : List TermsEvent) (ask : LeaderAsk) (key : Bytes),
      Throughout (Claimant.termsStep c) (fun _ e => e.Counted) {} (es ++ [.ask ask key]) →
      0 ≤ ((run (Claimant.termsStep c) {} es).leader c ask key).1.term := by
  refine ⟨fun v value hv _ => ?_, fun v w x y hv hw hvterm hwterm =>
    ?_, ?_, fun es key term hterm => ?_, fun es hled => ?_, fun es ask key hcounted => ?_⟩
  · exact ⟨Record.versionOf_composeValue hv value, Record.valueOf_composeValue v value⟩
  · have hsame := isNewer_composeValue hv hw hvterm hwterm x y
    rw [hsame]
    exact ⟨Version.isNewer_iff, rfl⟩
  · exact ⟨Version.isNewer_irrefl, fun _ _ _ => Version.isNewer_trans, Version.isNewer_trichotomous⟩
  · have hnonneg : 0 ≤ (run (Node.nodeStep J) (Node.fresh J) es).accepted :=
      Throughout.invariant (C := fun _ _ => True) (I := fun n : Node => 0 ≤ n.accepted)
        (fun _ e hn _ => Node.accepted_nodeStep_nonneg J hn e) (Node.accepted_construct_nonneg _)
        (throughout_true _ es)
    exact Node.accept_negative hnonneg key hterm
  · have hstart : (Node.fresh J).InNonneg :=
      ⟨Node.accepted_construct_nonneg _, fun entry hentry => absurd hentry List.not_mem_nil⟩
    exact (hled.invariant (I := Node.InNonneg) (fun _ _ hn he => hn.nodeStep J he) hstart).done
  · obtain ⟨hbefore, hlast⟩ := (throughout_append _ _ es _).mp hcounted
    exact (Claimant.nonneg_leader hlast.1 (Claimant.nonneg_run hbefore)).1

end AsyncDatabase
