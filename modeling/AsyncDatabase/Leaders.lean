import AsyncDatabase.Library.Run
import AsyncDatabase.Node

/-!
# Claims on partitions

How a clustered node claims the partitions it leads and gives them up (`cluster/etcd_cluster.cpp`):
`read_leaders`, with what etcd answers each call of a pass taken as given, beside `leader`, `accept`
and `restore_terms`, which share its terms. `claims_by_rule` says which calls a pass may make, over
every sequence of passes.
-/

namespace AsyncDatabase

open Bytes (ascii)
open Machine

/-- `cluster::config`, as far as it is about claims. -/
structure ClaimConfig where
  endpoints : List Bytes
  node : Bytes
  leaderPrefix : Bytes := ascii "/asyncdb/leader/"
  claimsPerRefresh : ℕ := 64
  leaseSeconds : ℤ := 10

/-- `etcd::claim`: what a create found or made. -/
structure EtcdClaim where
  held : Bool := false
  holder : Bytes := []
  revision : ℤ := 0

/-- What `etcd_cluster` keeps about leaders. -/
structure Claimant where
  terms : PartitionTerms := fun _ => 0
  leaderList : Partition → Option Leadership := fun _ => none
  /-- When a pass first found a claim that is to be given up. -/
  releasing : Partition → Option ℤ := fun _ => none

/-- What a pass is given: the membership as it was read, the lease, what the range of the leaders'
keys answers, and what each create and remove it may call answers. -/
structure ClaimPass where
  registered : List Member
  lease : ℤ
  range : Option (Std.ExtTreeMap Bytes Bytes)
  create : Partition → Option EtcdClaim
  remove : Partition → Bool

/-- What `leader` is given: whether etcd answered the last read of the membership, that membership,
the lease, what reading the partition's key answers and what creating it does. -/
structure LeaderAsk where
  answered : Bool
  registered : List Member
  lease : ℤ
  get : Option (Std.ExtTreeMap Bytes Bytes)
  create : Option EtcdClaim

/-- A call of etcd that changes a leader's key. -/
inductive ClaimCall where
  | create (partition : Partition)
  | remove (partition : Partition)
  deriving DecidableEq

namespace ClaimConfig

variable (c : ClaimConfig)

def isClustered : Bool := !c.endpoints.isEmpty && !c.node.isEmpty

/-- A third of the lease, as a clock of nanoseconds counts it. -/
def tick : ℤ := max (c.leaseSeconds.tdiv 3) 1 * 1000000000

def leaderKey (partition : Partition) : Bytes := c.leaderPrefix ++ Bytes.decimal partition

def shouldLead (registered : List Member) (partition : Partition) : Bool :=
  leaderOf (partitionName partition) registered = c.node

def termOf (terms : PartitionTerms) (holder : Bytes) (partition : Partition) : ℤ :=
  if holder ≠ c.node then 0 else terms partition

/-- A leadership read back from a key, in the newest term this node has seen. -/
def readBack (terms : PartitionTerms) (holder : Bytes) (partition : Partition) : Leadership where
  known := true
  isLocal := holder = c.node
  node := holder
  term := c.termOf terms holder partition

/-- A leadership a create answered. -/
def ofClaim (claimed : EtcdClaim) : Leadership where
  known := true
  isLocal := claimed.holder = c.node
  node := claimed.holder
  term := claimed.revision

end ClaimConfig

/-- `raise_term`. -/
def raiseTo (terms : PartitionTerms) (partition : Partition) (term : ℤ) : PartitionTerms :=
  Function.update terms partition (max (terms partition) term)

namespace Claimant

variable (c : ClaimConfig)

/-- What a pass has put together. -/
structure Walk where
  known : Partition → Option Leadership := fun _ => none
  toRelease : Partition → Option ℤ := fun _ => none
  claims : ℕ := 0
  terms : PartitionTerms
  /-- The calls made so far. -/
  calls : List ClaimCall := []

def Walk.knows (w : Walk) (partition : Partition) (led : Leadership) : Walk :=
  { w with known := Function.update w.known partition (some led) }

def Walk.waits (w : Walk) (partition : Partition) (since : ℤ) : Walk :=
  { w with toRelease := Function.update w.toRelease partition (some since) }

def Walk.asks (w : Walk) (call : ClaimCall) : Walk :=
  { w with claims := w.claims + 1, calls := w.calls ++ [call] }

/-- A partition whose key is there. -/
def held (s : Claimant) (now : ℤ) (pass : ClaimPass) (w : Walk) (partition : Partition)
    (holder : Bytes) : Walk :=
  let led := c.readBack w.terms holder partition
  if holder = c.node ∧ c.shouldLead pass.registered partition = false then
    let since := (s.releasing partition).getD now
    if c.tick ≤ now - since ∧ w.claims < c.claimsPerRefresh then
      let w := w.asks (.remove partition)
      if pass.remove partition then w else (w.waits partition since).knows partition led
    else (w.waits partition since).knows partition led
  else w.knows partition led

/-- A partition whose key is not there. -/
def unheld (pass : ClaimPass) (w : Walk) (partition : Partition) : Walk :=
  if c.claimsPerRefresh ≤ w.claims ∨ c.shouldLead pass.registered partition = false then w
  else
    let w := w.asks (.create partition)
    match pass.create partition with
    | none => w
    | some claimed =>
      let w := w.knows partition (c.ofClaim claimed)
      if claimed.held then { w with terms := raiseTo w.terms partition claimed.revision } else w

/-- One turn of the loop over the partitions. -/
def turn (s : Claimant) (now : ℤ) (pass : ClaimPass) (keys : Std.ExtTreeMap Bytes Bytes) (w : Walk)
    (partition : Partition) : Walk :=
  match keys[c.leaderKey partition]? with
  | some holder => held c s now pass w partition holder
  | none => unheld c pass w partition

/-- The partitions in the order a node walks them, which begins at another one for each node. -/
def walkOrder : List Partition :=
  (List.range partitionCount).map fun i =>
    ⟨((score c.node (ascii "leader")).toNat % partitionCount + i) % partitionCount,
      Nat.mod_lt _ (by decide)⟩

def walk (s : Claimant) (now : ℤ) (pass : ClaimPass) (keys : Std.ExtTreeMap Bytes Bytes) : Walk :=
  (walkOrder c).foldl (turn c s now pass keys) { terms := s.terms }

/-- `leader`: who leads the partition of a key, which is claimed where nothing is known of it and
this node is named. -/
def leader (s : Claimant) (ask : LeaderAsk) (key : Bytes) : Leadership × Claimant :=
  let partition := partitionOf key
  if c.isClustered = false then ({ known := true, isLocal := true, node := c.node }, s)
  else if ask.answered = false ∨ ask.registered.length < 2 then ({}, s)
  else
    match s.leaderList partition, ask.get with
    | some led, _ => (led, s)
    | none, none => ({}, s)
    | none, some keys =>
      let named := leaderOf (partitionName partition) ask.registered
      match keys[c.leaderKey partition]?, ask.create with
      | some holder, _ => (c.readBack s.terms holder partition, s)
      | none, create =>
        if named ≠ c.node then ({ known := true, node := named }, s)
        else if ask.lease = 0 then ({}, s)
        else
          match create with
          | none => ({}, s)
          | some claimed =>
            (c.ofClaim claimed,
              { s with
                terms := if claimed.held then raiseTo s.terms partition
                  claimed.revision else s.terms
                leaderList := Function.update s.leaderList partition (some (c.ofClaim claimed)) })

/-- `accept`, as the node does it that these terms are of. -/
def accept (s : Claimant) (key : Bytes) (term : ℤ) : Bool × Claimant :=
  if term = 0 then (true, s)
  else (s.terms (partitionOf key) ≤ term,
    { s with terms := raiseTo s.terms (partitionOf key) term })

def restoreTerms (s : Claimant) (applied : PartitionTerms) : Claimant :=
  { s with terms := fun partition => max (s.terms partition) (applied partition) }

/-- The keys a pass walks over, where it gets to walk over any. -/
def keysOf (pass : ClaimPass) : Option (Std.ExtTreeMap Bytes Bytes) :=
  if pass.registered.length < 2 ∨ pass.lease = 0 then none else pass.range

/-- `read_leaders`, and the calls it makes. -/
def readLeaders (s : Claimant) (now : ℤ) (pass : ClaimPass) : Claimant × List ClaimCall :=
  if pass.registered.length < 2 then (s, [])
  else if pass.lease = 0 then (s, [])
  else
    match pass.range with
    | none => ({ s with leaderList := fun _ => none }, [])
    | some keys =>
      let w := walk c s now pass keys
      ({ terms := w.terms, leaderList := w.known, releasing := w.toRelease }, w.calls)

end Claimant

/-! ### What a walk asks for -/

/-- What one pass saw of the partitions, and when: whether the key named this node and the
membership did not. -/
structure Look where
  time : ℤ
  finds : Partition → Bool

/-- What a pass sees over these keys. -/
def ClaimConfig.look (c : ClaimConfig) (now : ℤ) (pass : ClaimPass)
    (keys : Std.ExtTreeMap Bytes Bytes) : Look where
  time := now
  finds partition := keys[c.leaderKey partition]? = some c.node ∧
    c.shouldLead pass.registered partition = false

namespace Claimant

variable {c : ClaimConfig} {s : Claimant} {now : ℤ} {pass : ClaimPass}
  {keys : Std.ExtTreeMap Bytes Bytes} {w : Walk} {partition : Partition}

/-- What a walk has asked for and put down, by rule. -/
structure Ruled (c : ClaimConfig) (s : Claimant) (now : ℤ) (pass : ClaimPass)
    (keys : Std.ExtTreeMap Bytes Bytes) (w : Walk) : Prop where
  counted : w.calls.length = w.claims
  budget : w.claims ≤ c.claimsPerRefresh
  creates : ∀ partition, .create partition ∈ w.calls →
    keys[c.leaderKey partition]? = none ∧ c.shouldLead pass.registered partition = true
  removes : ∀ partition, .remove partition ∈ w.calls →
    (c.look now pass keys).finds partition = true ∧ c.tick ≤ now - (s.releasing partition).getD now
  waits : ∀ partition since, w.toRelease partition = some since →
    (c.look now pass keys).finds partition = true ∧ since = (s.releasing partition).getD now

theorem ruled_start : Ruled c s now pass keys { terms := s.terms } where
  counted := rfl
  budget := Nat.zero_le _
  creates _ h := absurd h List.not_mem_nil
  removes _ h := absurd h List.not_mem_nil
  waits _ _ h := absurd h.symm (Option.some_ne_none _)

theorem Ruled.knows (h : Ruled c s now pass keys w) (partition : Partition) (led : Leadership) :
    Ruled c s now pass keys (w.knows partition led) :=
  ⟨h.counted, h.budget, h.creates, h.removes, h.waits⟩

theorem Ruled.later (h : Ruled c s now pass keys w)
    (hfinds : (c.look now pass keys).finds partition = true) :
    Ruled c s now pass keys (w.waits partition ((s.releasing partition).getD now)) := by
  refine ⟨h.counted, h.budget, h.creates, h.removes, fun other since hsince => ?_⟩
  change Function.update w.toRelease partition _ other = some since at hsince
  by_cases hsame : other = partition
  · subst hsame
    rw [Function.update_self] at hsince
    exact ⟨hfinds, (Option.some.inj hsince).symm⟩
  · rw [Function.update_of_ne hsame] at hsince
    exact h.waits other since hsince

theorem Ruled.remove (h : Ruled c s now pass keys w) (hless : w.claims < c.claimsPerRefresh)
    (hfinds : (c.look now pass keys).finds partition = true)
    (hold : c.tick ≤ now - (s.releasing partition).getD now) :
    Ruled c s now pass keys (w.asks (.remove partition)) := by
  refine ⟨?_, hless, fun other hcall => ?_, fun other hcall => ?_, h.waits⟩
  · change (w.calls ++ [_]).length = w.claims + 1
    rw [List.length_append, h.counted, List.length_singleton]
  · rcases List.mem_append.mp hcall with hcall | hcall
    · exact h.creates other hcall
    · cases List.mem_singleton.mp hcall
  · rcases List.mem_append.mp hcall with hcall | hcall
    · exact h.removes other hcall
    · cases List.mem_singleton.mp hcall
      exact ⟨hfinds, hold⟩

theorem Ruled.create (h : Ruled c s now pass keys w) (hless : w.claims < c.claimsPerRefresh)
    (hnone : keys[c.leaderKey partition]? = none)
    (hlead : c.shouldLead pass.registered partition = true) :
    Ruled c s now pass keys (w.asks (.create partition)) := by
  refine ⟨?_, hless, fun other hcall => ?_, fun other hcall => ?_, h.waits⟩
  · change (w.calls ++ [_]).length = w.claims + 1
    rw [List.length_append, h.counted, List.length_singleton]
  · rcases List.mem_append.mp hcall with hcall | hcall
    · exact h.creates other hcall
    · cases List.mem_singleton.mp hcall
      exact ⟨hnone, hlead⟩
  · rcases List.mem_append.mp hcall with hcall | hcall
    · exact h.removes other hcall
    · cases List.mem_singleton.mp hcall

/-- A turn of the loop keeps to the rules. -/
theorem Ruled.turn (h : Ruled c s now pass keys w) (partition : Partition) :
    Ruled c s now pass keys (turn c s now pass keys w partition) := by
  unfold Claimant.turn
  cases hkey : keys[c.leaderKey partition]? with
  | some holder =>
    unfold held
    dsimp only
    by_cases hmine : holder = c.node ∧ c.shouldLead pass.registered partition = false
    · have hfinds : (c.look now pass keys).finds partition = true :=
        decide_eq_true ⟨by rw [hkey, hmine.1], hmine.2⟩
      rw [if_pos hmine]
      split_ifs with hdue hgone
      · exact h.remove hdue.2 hfinds hdue.1
      · exact ((h.remove hdue.2 hfinds hdue.1).later hfinds).knows partition _
      · exact (h.later hfinds).knows partition _
    · rw [if_neg hmine]
      exact h.knows partition _
  | none =>
    unfold unheld
    split_ifs with hstop
    · exact h
    · rw [not_or, not_le, Bool.not_eq_false] at hstop
      have hcreate := h.create hstop.1 hkey hstop.2
      dsimp only
      cases pass.create partition with
      | none => exact hcreate
      | some claimed =>
        dsimp only
        split_ifs
        · exact ⟨hcreate.counted, hcreate.budget, hcreate.creates, hcreate.removes, hcreate.waits⟩
        · exact hcreate.knows partition _

theorem ruled_walk : Ruled c s now pass keys (walk c s now pass keys) := by
  have hfold : ∀ (l : List Partition) (w : Walk), Ruled c s now pass keys w →
      Ruled c s now pass keys (l.foldl (Claimant.turn c s now pass keys) w) := by
    intro l
    induction l with
    | nil => exact fun w h => h
    | cons partition l ih => exact fun w h => ih _ (h.turn partition)
  exact hfold _ _ ruled_start

end Claimant

/-! ### Terms that are not negative -/

/-- What changes the terms of a node. -/
inductive TermsEvent where
  | pass (now : ℤ) (pass : ClaimPass)
  | ask (ask : LeaderAsk) (key : Bytes)
  | accept (key : Bytes) (term : ℤ)
  | restore (applied : PartitionTerms)

/-- etcd counts its revisions up from zero. -/
def TermsEvent.Counted : TermsEvent → Prop
  | .pass _ given =>
    ∀ partition claimed, given.create partition = some claimed → 0 ≤ claimed.revision
  | .ask given _ => ∀ claimed, given.create = some claimed → 0 ≤ claimed.revision
  | .accept .. | .restore _ => True

namespace Claimant

def termsStep (c : ClaimConfig) (s : Claimant) : TermsEvent → Claimant
  | .pass now pass => (s.readLeaders c now pass).1
  | .ask ask key => (s.leader c ask key).2
  | .accept key term => (s.accept key term).2
  | .restore applied => s.restoreTerms applied

variable {c : ClaimConfig} {s : Claimant}

/-- No term that was seen or is led in is negative. -/
structure Nonneg (terms : PartitionTerms) (led : Partition → Option Leadership) : Prop where
  terms : 0 ≤ terms
  led : ∀ partition lead, led partition = some lead → 0 ≤ lead.term

theorem raiseTo_nonneg {terms : PartitionTerms} (h : 0 ≤ terms) (partition : Partition) (term : ℤ) :
    0 ≤ raiseTo terms partition term := by
  intro other
  unfold raiseTo
  rw [Function.update_apply]
  split_ifs
  · exact (h partition).trans (le_max_left _ _)
  · exact h other

theorem readBack_nonneg {terms : PartitionTerms} (h : 0 ≤ terms) (holder : Bytes)
    (partition : Partition) : 0 ≤ (c.readBack terms holder partition).term := by
  change 0 ≤ c.termOf terms holder partition
  unfold ClaimConfig.termOf
  split_ifs
  · exact le_rfl
  · exact h partition

theorem Nonneg.update {terms : PartitionTerms} {led : Partition → Option Leadership}
    (h : Nonneg terms led) (partition : Partition) {lead : Leadership} (hlead : 0 ≤ lead.term) :
    Nonneg terms (Function.update led partition (some lead)) := by
  refine ⟨h.terms, fun other known hknown => ?_⟩
  rw [Function.update_apply] at hknown
  split_ifs at hknown
  · rw [← Option.some.inj hknown]
    exact hlead
  · exact h.led other known hknown

theorem Nonneg.turn {now : ℤ} {pass : ClaimPass} {keys : Std.ExtTreeMap Bytes Bytes} {w : Walk}
    (hcounted : (TermsEvent.pass now pass).Counted) (h : Nonneg w.terms w.known)
    (partition : Partition) :
    Nonneg (turn c s now pass keys w partition).terms
      (turn c s now pass keys w partition).known := by
  unfold Claimant.turn
  cases keys[c.leaderKey partition]? with
  | some holder =>
    have hknows := h.update partition (readBack_nonneg (c := c) h.terms holder partition)
    unfold held
    dsimp only
    split_ifs
    · exact h
    all_goals exact hknows
  | none =>
    unfold unheld
    dsimp only
    split_ifs
    · exact h
    · cases hcreate : pass.create partition with
      | none => exact h
      | some claimed =>
        have hclaimed : 0 ≤ (c.ofClaim claimed).term := hcounted partition claimed hcreate
        dsimp only
        split_ifs
        · exact ⟨raiseTo_nonneg h.terms _ _, (h.update partition hclaimed).led⟩
        · exact h.update partition hclaimed

theorem nonneg_readLeaders {now : ℤ} {pass : ClaimPass}
    (hcounted : (TermsEvent.pass now pass).Counted) (h : Nonneg s.terms s.leaderList) :
    Nonneg (s.readLeaders c now pass).1.terms (s.readLeaders c now pass).1.leaderList := by
  have hnobody : Nonneg s.terms fun _ => none :=
    ⟨h.terms, fun _ _ hled => absurd hled.symm (Option.some_ne_none _)⟩
  unfold readLeaders
  split_ifs
  · exact h
  · exact h
  · cases pass.range with
    | none => exact hnobody
    | some keys =>
      have hfold : ∀ (l : List Partition) (w : Walk), Nonneg w.terms w.known →
          Nonneg (l.foldl (Claimant.turn c s now pass keys) w).terms
            (l.foldl (Claimant.turn c s now pass keys) w).known := by
        intro l
        induction l with
        | nil => exact fun w hw => hw
        | cons partition l ih => exact fun w hw => ih _ (hw.turn hcounted partition)
      exact hfold _ _ hnobody

/-- What a leader is answered with, and what is known after. -/
theorem nonneg_leader {ask : LeaderAsk} {key : Bytes} (hcounted : (TermsEvent.ask ask key).Counted)
    (h : Nonneg s.terms s.leaderList) :
    0 ≤ (s.leader c ask key).1.term ∧
      Nonneg (s.leader c ask key).2.terms (s.leader c ask key).2.leaderList := by
  unfold leader
  by_cases hsingle : c.isClustered = false
  · rw [if_pos hsingle]
    exact ⟨le_rfl, h⟩
  rw [if_neg hsingle]
  by_cases hfew : ask.answered = false ∨ ask.registered.length < 2
  · rw [if_pos hfew]
    exact ⟨le_rfl, h⟩
  · rw [if_neg hfew]
    cases hled : s.leaderList (partitionOf key) with
    | some led => exact ⟨h.led _ led hled, h⟩
    | none =>
      cases ask.get with
      | none => exact ⟨le_rfl, h⟩
      | some keys =>
        dsimp only
        cases keys[c.leaderKey (partitionOf key)]? with
        | some holder => exact ⟨readBack_nonneg h.terms holder _, h⟩
        | none =>
          dsimp only
          split_ifs
          · exact ⟨le_rfl, h⟩
          · exact ⟨le_rfl, h⟩
          · cases hcreate : ask.create with
            | none => exact ⟨le_rfl, h⟩
            | some claimed =>
              have hclaimed : 0 ≤ (c.ofClaim claimed).term := hcounted claimed hcreate
              refine ⟨hclaimed, ?_, (h.update _ hclaimed).led⟩
              dsimp only
              split_ifs
              · exact raiseTo_nonneg h.terms _ _
              · exact h.terms

theorem nonneg_termsStep {e : TermsEvent} (hcounted : e.Counted) (h : Nonneg s.terms s.leaderList) :
    Nonneg (s.termsStep c e).terms (s.termsStep c e).leaderList := by
  cases e with
  | pass now pass => exact nonneg_readLeaders hcounted h
  | ask ask key => exact (nonneg_leader hcounted h).2
  | accept key term =>
    rw [termsStep, accept]
    split_ifs
    · exact h
    · exact ⟨raiseTo_nonneg h.terms _ _, h.led⟩
  | restore applied =>
    exact ⟨fun partition => (h.terms partition).trans (le_max_left _ _), h.led⟩

/-- **No node leads in a negative term**, or has seen one, where the revisions of etcd are not
negative. -/
theorem nonneg_run {es : List TermsEvent}
    (h : Throughout (termsStep c) (fun _ e => e.Counted) {} es) :
    Nonneg (run (termsStep c) {} es).terms (run (termsStep c) {} es).leaderList := by
  have hstart : Nonneg ({} : Claimant).terms ({} : Claimant).leaderList :=
    ⟨le_rfl, fun _ _ hled => absurd hled.symm (Option.some_ne_none _)⟩
  exact h.invariant (I := fun s => Nonneg s.terms s.leaderList)
    (fun _ _ hs he => nonneg_termsStep he hs) hstart

end Claimant

/-! ### Passes one after another -/

/-- A clustered node from its start on, with the looks its passes took, the last one first. -/
structure ClaimRun where
  claimant : Claimant := {}
  clock : ℤ := 0
  looks : List Look := []

namespace ClaimRun

variable (c : ClaimConfig)

/-- A pass some time after the one before it. -/
def step (s : ClaimRun) (e : ℕ × ClaimPass) : ClaimRun where
  claimant := (s.claimant.readLeaders c (s.clock + e.1) e.2).1
  clock := s.clock + e.1
  looks :=
    match Claimant.keysOf e.2 with
    | none => s.looks
    | some keys => c.look (s.clock + e.1) e.2 keys :: s.looks

/-- The calls of a pass. -/
def calls (s : ClaimRun) (e : ℕ × ClaimPass) : List ClaimCall :=
  (s.claimant.readLeaders c (s.clock + e.1) e.2).2

/-- Every look at a partition since one that is this old found it the same. -/
def FoundSince (looks : List Look) (partition : Partition) (time : ℤ) : Prop :=
  ∃ newer look older, looks = newer ++ look :: older ∧ look.time = time ∧
    look.finds partition = true ∧ ∀ later ∈ newer, later.finds partition = true

/-- What a pass may ask of etcd. -/
structure ByRule (s : ClaimRun) (e : ℕ × ClaimPass) : Prop where
  budget : (s.calls c e).length ≤ c.claimsPerRefresh
  creates : ∀ partition, .create partition ∈ s.calls c e → ∃ keys, Claimant.keysOf e.2 = some keys ∧
    keys[c.leaderKey partition]? = none ∧ c.shouldLead e.2.registered partition = true
  removes : ∀ partition, .remove partition ∈ s.calls c e → ∃ keys, Claimant.keysOf e.2 = some keys ∧
    keys[c.leaderKey partition]? = some c.node ∧ c.shouldLead e.2.registered partition = false ∧
    ∃ time, time + c.tick ≤ s.clock + e.1 ∧ FoundSince (step c s e).looks partition time

/-- A claim that waits to be given up was found at every look since it began to wait. -/
def Waiting (s : ClaimRun) : Prop :=
  ∀ partition since, s.claimant.releasing partition = some since →
    FoundSince s.looks partition since

variable {c}

theorem tick_pos (c : ClaimConfig) : 0 < c.tick := by
  unfold ClaimConfig.tick
  have hle : 1 ≤ max (c.leaseSeconds.tdiv 3) 1 := le_max_right _ _
  omega

/-- A pass walks the keys it has, or asks for nothing. -/
theorem readLeaders_cases (c : ClaimConfig) (s : Claimant) (now : ℤ) (pass : ClaimPass) :
    (Claimant.keysOf pass = none ∧ ∃ leaderList, s.readLeaders c now pass =
      ({ s with leaderList }, [])) ∨ ∃ keys, Claimant.keysOf pass = some keys ∧
        (s.readLeaders c now pass).1.releasing = (s.walk c now pass keys).toRelease ∧
        (s.readLeaders c now pass).2 = (s.walk c now pass keys).calls := by
  unfold Claimant.keysOf Claimant.readLeaders
  by_cases hfew : pass.registered.length < 2
  · rw [if_pos (Or.inl hfew), if_pos hfew]
    exact Or.inl ⟨rfl, s.leaderList, rfl⟩
  · by_cases hlease : pass.lease = 0
    · rw [if_pos (Or.inr hlease), if_neg hfew, if_pos hlease]
      exact Or.inl ⟨rfl, s.leaderList, rfl⟩
    · rw [if_neg (not_or.mpr ⟨hfew, hlease⟩), if_neg hfew, if_neg hlease]
      cases pass.range with
      | none => exact Or.inl ⟨rfl, fun _ => none, rfl⟩
      | some keys => exact Or.inr ⟨keys, rfl, rfl, rfl⟩

/-- One pass keeps to the rules, and what waits after it has been found since. -/
theorem step_byRule {s : ClaimRun} (h : s.Waiting) (e : ℕ × ClaimPass) :
    s.ByRule c e ∧ (step c s e).Waiting := by
  obtain ⟨elapsed, pass⟩ := e
  rcases readLeaders_cases c s.claimant (s.clock + elapsed) pass with
    ⟨hnone, leaderList, hrun⟩ | ⟨keys, hkeys, hreleasing, hcalls⟩
  · have hnothing : s.calls c (elapsed, pass) = [] := by
      rw [calls, hrun]
    refine ⟨⟨?_, fun partition hcall => ?_, fun partition hcall => ?_⟩,
      fun partition since hsince => ?_⟩
    · rw [hnothing]
      exact Nat.zero_le _
    · rw [hnothing] at hcall
      exact absurd hcall List.not_mem_nil
    · rw [hnothing] at hcall
      exact absurd hcall List.not_mem_nil
    · have hlooks : (step c s (elapsed, pass)).looks = s.looks := by
        rw [step]
        dsimp only
        rw [hnone]
      rw [hlooks]
      refine h partition since ?_
      rw [step] at hsince
      dsimp only at hsince
      rwa [hrun] at hsince
  · have hruled : Claimant.Ruled c s.claimant (s.clock + elapsed) pass keys _ := Claimant.ruled_walk
    have hlooks : (step c s (elapsed, pass)).looks =
      c.look (s.clock + elapsed) pass keys :: s.looks := by
      rw [step]
      dsimp only
      rw [hkeys]
    have hcalls : s.calls c (elapsed, pass) =
      (s.claimant.walk c (s.clock + elapsed) pass keys).calls := hcalls
    -- what waited before this pass and was found by it was found since
    have hfound : ∀ partition since,
        (c.look (s.clock + elapsed) pass keys).finds partition = true →
        s.claimant.releasing partition = some since →
        FoundSince (step c s (elapsed, pass)).looks partition since := by
      intro partition since hfinds hsince
      obtain ⟨newer, look, older, hsplit, htime, hlook, hnewer⟩ := h partition since hsince
      refine ⟨c.look (s.clock + elapsed) pass keys :: newer, look, older, ?_, htime, hlook, ?_⟩
      · rw [hlooks, hsplit, List.cons_append]
      · exact List.forall_mem_cons.mpr ⟨hfinds, hnewer⟩
    refine ⟨⟨?_, fun partition hcall => ?_, fun partition hcall => ?_⟩,
      fun partition since hsince => ?_⟩
    · rw [hcalls, hruled.counted]
      exact hruled.budget
    · rw [hcalls] at hcall
      exact ⟨keys, hkeys, hruled.creates partition hcall⟩
    · rw [hcalls] at hcall
      obtain ⟨hfinds, hold⟩ := hruled.removes partition hcall
      obtain ⟨hkey, hother⟩ := of_decide_eq_true hfinds
      refine ⟨keys, hkeys, hkey, hother, ?_⟩
      cases hsince : s.claimant.releasing partition with
      | none =>
        -- found now, it has not waited
        rw [hsince, Option.getD_none, sub_self] at hold
        exact absurd hold (not_le.mpr (tick_pos c))
      | some since =>
        rw [hsince, Option.getD_some] at hold
        exact ⟨since, le_sub_iff_add_le'.mp hold, hfound partition since hfinds hsince⟩
    · change (s.claimant.readLeaders c (s.clock + elapsed) pass).1.releasing
        partition = some since at hsince
      rw [hreleasing] at hsince
      obtain ⟨hfinds, rfl⟩ := hruled.waits partition since hsince
      cases hbefore : s.claimant.releasing partition with
      | none =>
        rw [Option.getD_none]
        exact ⟨[], _, s.looks, hlooks, rfl, hfinds, fun later hlater =>
          absurd hlater List.not_mem_nil⟩
      | some before =>
        rw [Option.getD_some]
        exact hfound partition before hfinds hbefore

/-- **Claims are made and given up by rule**, over every sequence of passes. A pass asks for no more
than its budget. It creates what nobody held and it is named to lead. And it removes what the keys
say it holds and it is not named to lead, once every look at the partition has found that for a
tick. -/
theorem claims_by_rule (c : ClaimConfig) (es : List (ℕ × ClaimPass)) :
    Throughout (step c) (fun s e => s.ByRule c e) {} es := by
  have hstart : Waiting {} := fun _ _ h => absurd h.symm (Option.some_ne_none _)
  have htrue : Throughout (step c) (fun _ _ => True) {} es := throughout_true _ es
  exact htrue.imp (fun s e hs _ => (step_byRule hs e).2)
    (fun s e hs _ => (step_byRule hs e).1) hstart

end ClaimRun

end AsyncDatabase
