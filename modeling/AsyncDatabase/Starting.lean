import AsyncDatabase.Absence
import AsyncDatabase.Holders
import AsyncDatabase.Walking
import AsyncDatabase.Watching

/-!
# A node that starts

What a process does before it serves (`server::serve`): it fills an empty store from a zone that
has the records (`rebuild/rebuild.cpp`), vouches for everything or for nothing, joins, and starts
the loop that runs passes. What a peer answers, and how a walk of a share ends, is part of the
start. `starts_iff` says of which starts a node vouches for what it fetched until its first pass.
-/

namespace AsyncDatabase

open Bytes (ascii)
open Machine

/-- How a walk ended: the whole of its share was sent and taken in, or not, or it threw. -/
inductive Ending where
  | whole
  | short
  | threw
  deriving DecidableEq, Repr

/-- How far a rebuild has come: the schema of the store by now, and the shares it took the whole
of. -/
structure Taken where
  ending : Ending := .short
  tables : Schema
  shares : List Share := []

/-- These shares have a partition of a table. -/
def ReadIn (shares : List Share) (table : Bytes) (partition : Partition) : Prop :=
  ∃ share ∈ shares, share.table = table ∧ partition ∈ share.partitions

/-- A process that starts: what it is configured with, what `discover` reads, the schema of its
store, and what its peers answer. Zones are known by their number in the list of `zones`. -/
structure Start where
  node : Bytes
  zone : Bytes
  clustered : Bool := true
  members : List Member
  /-- A node registers under its name. -/
  named : ∀ listed ∈ members, listed.node ≠ []
  tables : Schema
  /-- The tables that the other nodes have. -/
  elsewhere : List Bytes
  /-- The patience is spent as the rebuild comes to a zone. -/
  spent : ℕ → Bool := fun _ => false
  /-- What `transfer::tables` answers of a zone. -/
  schema : ℕ → Option Schema
  /-- Merging a zone's schema into the store goes through. -/
  merges : ℕ → Bool := fun _ => true
  /-- What `copy_table` does with a share of a zone. -/
  walk : ℕ → Share → Ending

namespace Start

variable (s : Start)

/-- The membership that was read, and none where the instance is not clustered. -/
def listed : List Member := if s.clustered then s.members else []

/-- `holdings`, as the rebuild reads it. -/
def owned : PartitionSet := holdingsOf s.node s.listed

def zones : List (List Bytes) := zonesOf s.members s.node s.zone

/-- The shares of a zone: for each table what each holder is asked for. -/
def sharesOf (named : Schema) (nodes : List Bytes) : List Share :=
  named.names.flatMap fun table =>
    (holdersIn s.owned nodes).toList.map fun held =>
      { node := held.1, table, partitions := held.2 }

/-- The loop of `from_zone` over tables and holders. -/
def copyTables (number : ℕ) : List Share → Taken → Taken
  | [], taken => { taken with ending := .whole }
  | share :: shares, taken =>
    match s.walk number share with
    | .whole => copyTables number shares { taken with shares := taken.shares ++ [share] }
    | ending => { taken with ending }

def fromZone (number : ℕ) (nodes : List Bytes) (taken : Taken) : Taken :=
  match s.schema number with
  | none => { taken with ending := .short }
  | some named =>
    let merged := { taken with tables := (taken.tables.merge named).1 }
    if s.merges number then s.copyTables number (s.sharesOf named nodes) merged
    else { merged with ending := .threw }

/-- The loop of `rebuild` over the zones, from the one of this number on. -/
def rebuildFrom : ℕ → List (List Bytes) → Taken → Taken
  | _, [], taken => taken
  | number, nodes :: zones, taken =>
    if nodes = [] then rebuildFrom (number + 1) zones taken
    else if s.spent number then taken
    else
      match (s.fromZone number nodes taken).ending with
      | .short => rebuildFrom (number + 1) zones (s.fromZone number nodes taken)
      | _ => s.fromZone number nodes taken

def rebuild : Taken :=
  if s.tables.names ≠ [] then { ending := .whole, tables := s.tables }
  else if s.zones.length < 2 then { ending := .whole, tables := s.tables }
  else s.rebuildFrom 1 s.zones.tail { tables := s.tables }

/-- What `serve` goes on with: an instance that is not clustered rebuilds nothing and is whole. -/
def rebuilt : Taken :=
  if s.clustered then s.rebuild else { ending := .whole, tables := s.tables }

/-- The store was left with something by the process before. -/
def returning : Bool := decide (s.tables.names ≠ [])

/-- What happens to the membership and the loop up to `nodes.start`. -/
def serve : List WatchEvent :=
  (if s.clustered then [.replace s.members] else []) ++
    [.rebuild, .rebuilt (decide (s.rebuilt.ending = .whole)) s.returning]

def served : Watch := run (Watch.step s.node) {} s.serve

end Start

/-- What may happen before the first pass is begun. -/
inductive EarlyEvent where
  | replace (members : List Member)
  | register
  | start
  | tick

def EarlyEvent.watched : EarlyEvent → WatchEvent
  | .replace members => .replace members
  | .register => .register
  | .start => .start
  | .tick => .tick

/-- A read that another node sends on before the first pass, and the store that it finds. -/
structure Sought where
  store : Store
  table : Bytes
  partition : Bytes
  sort : Bytes

namespace Sought

def key (a : Sought) : Bytes := Record.composeKey a.partition a.sort

/-- The partition that is read is answered for by a node that knows it is short of it. -/
def AnsweredShort (J : JsonCodec) (a : Sought) (m : Membership) : Prop :=
  ∀ n : Node, n.store = a.store → n.holding = m.holding → n.filled = m.filled →
    ∀ w : Seams, w.db = {} → ∀ request : Request,
      (request.Reads true (recordPath a.table a.partition a.sort) →
        (∃ record, Node.parseRequest request a.partition a.sort = .ok record) →
        n.recordOf a.table a.key = none →
        Node.respond (Node.routeKeys J w request) n = Node.nodeIncomplete) ∧
      (request.Reads true (rangePath a.table) →
        Scan.readPartition request.query = some (partitionOf a.key) →
        Node.respond (Node.routeKeys J w request) n = Node.nodeIncomplete) ∧
      -- what the node's own store says, where a client asks it
      (n.recordOf a.table a.key = none →
        Node.respond (Node.readHere w a.table a.key) n = Node.nodeIncomplete)

end Sought

namespace Start

variable (s : Start)

def step (w : Watch) (e : EarlyEvent) : Watch := w.step s.node e.watched

/-- No other node can have a record. -/
def Alone : Prop := s.listed.length < 2

instance : Decidable s.Alone := inferInstanceAs (Decidable (_ < 2))

/-- The rebuild took the whole of a partition, for every table that there is. -/
def Fetched (partition : Partition) : Prop :=
  ∀ table, table ∈ s.rebuilt.tables.names ∨ table ∈ s.elsewhere →
    ReadIn s.rebuilt.shares table partition

/-- The node is short of a partition that another node may have records of. -/
def Wants (partition : Partition) : Prop := ¬s.Alone ∧ ¬s.Fetched partition

/-- A pass is to come for what the node lacks, as soon as the loop runs. -/
def Scheduled (w : Watch) : Prop :=
  w.phase = .waiting → 2 ≤ w.membership.members.length →
    ∀ partition ∈ w.membership.holding, s.Wants partition → 0 < w.attempts ∨ w.Differs

/-- **What a node that starts may say before its first pass**: it vouches for what it fetched, it
says that it is short of the rest, and a pass is to come for it. -/
structure Honest (J : JsonCodec) (a : Sought) (w : Watch) : Prop where
  vouched : ∀ partition ∈ w.membership.filled, s.Alone ∨ s.Fetched partition
  answered : partitionOf a.key ∈ w.membership.holding → s.Wants (partitionOf a.key) →
    a.AnsweredShort J w.membership
  scheduled : s.Scheduled w

/-- The zone that the store is filled from has every table, but for those an earlier zone gave all
of. -/
def NamesAll : ℕ → List (List Bytes) → Taken → Prop
  | _, [], _ => True
  | number, nodes :: zones, taken =>
    if nodes = [] then NamesAll (number + 1) zones taken
    else if s.spent number then True
    else
      match (s.fromZone number nodes taken).ending with
      | .whole => ∀ table,
          table ∈ (s.fromZone number nodes taken).tables.names ∨ table ∈ s.elsewhere →
          (∃ named ∈ s.schema number, table ∈ named.names) ∨
            ∀ partition ∈ s.owned, ReadIn taken.shares table partition
      | .short => NamesAll (number + 1) zones (s.fromZone number nodes taken)
      | .threw => True

/-- A start that leaves nothing unread that it vouches for: the node is alone, holds nothing, or
comes with no table and finds another zone to read, in which every table is. -/
def Fills : Prop :=
  s.Alone ∨ s.owned = ∅ ∨ s.tables.names = [] ∧
    if s.zones.length < 2 then s.elsewhere = []
    else s.NamesAll 1 s.zones.tail { tables := s.tables }

/-- The loop that has no pass to run takes its first reading over nothing that the node lacks. -/
def StartsOverNothing (w : Watch) (e : EarlyEvent) : Prop :=
  e = .start → w.phase = .joining false → 2 ≤ w.membership.members.length →
    ∀ partition ∈ w.membership.holding, ¬s.Wants partition

/-- The node that is asked has the table and the family of the table open, where it holds the
partition and lacks it. -/
def Knows (a : Sought) (w : Watch) : Prop :=
  partitionOf a.key ∈ w.membership.holding → s.Wants (partitionOf a.key) →
    a.store.tables.has a.table = true ∧ a.table ∈ a.store.disk.families

/-! ### What a rebuild takes -/

variable {s}

/-- The shares a zone is asked for go as far as each of them is taken. -/
theorem copyTables_cases (number : ℕ) (shares : List Share) (taken : Taken) :
    (s.copyTables number shares taken).tables = taken.tables ∧
      ((s.copyTables number shares taken).ending = .whole →
        (s.copyTables number shares taken).shares = taken.shares ++ shares) := by
  induction shares generalizing taken with
  | nil => exact ⟨rfl, fun _ => (List.append_nil _).symm⟩
  | cons share shares ih =>
    rw [copyTables]
    split
    · next hwalk =>
      refine ⟨(ih _).1, fun hwhole => ?_⟩
      rw [(ih _).2 hwhole, List.append_assoc]
      rfl
    · next ending hno => exact ⟨rfl, fun hwhole => absurd hwhole hno⟩

/-- What a zone that was read whole gave: a schema, and every share of each of its tables. -/
theorem shares_fromZone {number : ℕ} {nodes : List Bytes} {taken : Taken}
    (h : (s.fromZone number nodes taken).ending = .whole) :
    ∃ named, s.schema number = some named ∧
      (s.fromZone number nodes taken).shares = taken.shares ++ s.sharesOf named nodes := by
  unfold fromZone at h ⊢
  cases hschema : s.schema number with
  | none =>
    rw [hschema] at h
    cases h
  | some named =>
    rw [hschema] at h
    dsimp only at h ⊢
    split_ifs at h ⊢ with hmerges
    exact ⟨named, rfl, (copyTables_cases _ _ _).2 h⟩

theorem readIn_append {shares more : List Share} {table : Bytes} {partition : Partition} :
    ReadIn (shares ++ more) table partition ↔
      ReadIn shares table partition ∨ ReadIn more table partition := by
  unfold ReadIn
  simp only [List.mem_append, or_and_right, exists_or]

/-- The shares of a zone have every partition that is owned of every table that is named. -/
theorem readIn_sharesOf {named : Schema} {nodes : List Bytes} (hne : nodes ≠ [])
    (hnames : ∀ node ∈ nodes, node ≠ []) {table : Bytes} {partition : Partition}
    (howned : partition ∈ s.owned) :
    ReadIn (s.sharesOf named nodes) table partition ↔ table ∈ named.names := by
  unfold ReadIn sharesOf
  constructor
  · rintro ⟨share, hshare, rfl, -⟩
    obtain ⟨table, htable, hheld⟩ := List.mem_flatMap.mp hshare
    obtain ⟨held, -, rfl⟩ := List.mem_map.mp hheld
    exact htable
  · intro htable
    -- somebody in the zone holds the partition
    have hholder : holderIn nodes partition = some (ownerOf (partitionName partition) nodes) :=
      holderIn_eq_some_iff.mpr ⟨rfl, ownerOf_ne_nil _ hne hnames⟩
    have hin := ((names_holdersIn s.owned nodes).iff _ _).mpr ⟨howned, hholder⟩
    rw [Std.ExtTreeMap.getD_eq_getD_getElem?] at hin
    cases hlook : (holdersIn s.owned nodes)[ownerOf (partitionName partition) nodes]? with
    | none =>
      rw [hlook] at hin
      exact absurd hin (Finset.notMem_empty _)
    | some partitions =>
      rw [hlook] at hin
      have hheld := Std.ExtTreeMap.mem_toList_iff_getElem?_eq_some.mpr hlook
      refine ⟨{ node := ownerOf (partitionName partition) nodes, table, partitions }, ?_, rfl, hin⟩
      exact List.mem_flatMap.mpr ⟨table, htable, List.mem_map.mpr ⟨_, hheld, rfl⟩⟩

/-- Everything that is owned was read, of every table. -/
def ReadsAll (s : Start) (taken : Taken) : Prop :=
  ∀ table, table ∈ taken.tables.names ∨ table ∈ s.elsewhere →
    ∀ partition ∈ s.owned, ReadIn taken.shares table partition

/-- A rebuild that is whole has read everything exactly where its last zone names every table. -/
theorem readsAll_rebuildFrom {zones : List (List Bytes)}
    (hnames : ∀ nodes ∈ zones, ∀ node ∈ nodes, node ≠ []) (number : ℕ) {taken : Taken}
    (hshort : taken.ending ≠ .whole) :
    ((s.rebuildFrom number zones taken).ending = .whole →
        s.ReadsAll (s.rebuildFrom number zones taken)) ↔ s.NamesAll number zones taken := by
  induction zones generalizing number taken with
  | nil => exact iff_of_true (fun hwhole => absurd hwhole hshort) trivial
  | cons nodes zones ih =>
    have hzone := hnames nodes List.mem_cons_self
    have hrest := fun other hother => hnames other (List.mem_cons_of_mem nodes hother)
    rw [rebuildFrom, NamesAll]
    by_cases hne : nodes = []
    · rw [if_pos hne, if_pos hne]
      exact ih hrest _ hshort
    rw [if_neg hne, if_neg hne]
    by_cases hspent : s.spent number = true
    · rw [if_pos hspent, if_pos hspent]
      exact iff_of_true (fun hwhole => absurd hwhole hshort) trivial
    rw [if_neg hspent, if_neg hspent]
    cases hending : (s.fromZone number nodes taken).ending with
    | short => exact ih hrest _ (by rw [hending]; decide)
    | threw =>
      dsimp only
      rw [hending]
      exact iff_of_true (fun hwhole => by cases hwhole) trivial
    | whole =>
      dsimp only
      obtain ⟨named, hschema, hshares⟩ := shares_fromZone hending
      rw [hending, hschema]
      refine (imp_iff_right rfl).trans ?_
      unfold ReadsAll
      refine forall₂_congr fun table _ => ?_
      have hread : ∀ partition ∈ s.owned,
          (ReadIn (s.fromZone number nodes taken).shares table partition ↔
            ReadIn taken.shares table partition ∨ table ∈ named.names) := by
        intro partition howned
        rw [hshares, readIn_append, readIn_sharesOf hne hzone howned]
      constructor
      · intro hall
        by_cases hnamed : table ∈ named.names
        · exact Or.inl ⟨named, rfl, hnamed⟩
        · exact Or.inr fun partition howned =>
            ((hread partition howned).mp (hall partition howned)).resolve_right hnamed
      · rintro (⟨other, hother, hnamed⟩ | hbefore) partition howned
        · obtain rfl := Option.mem_some_iff.mp hother
          exact (hread partition howned).mpr (Or.inr hnamed)
        · exact (hread partition howned).mpr (Or.inl (hbefore partition howned))

/-! ### What a start leaves behind -/

theorem ne_nil_of_mem_zones : ∀ nodes ∈ s.zones, ∀ node ∈ nodes, node ≠ [] := by
  intro nodes hnodes node hnode
  obtain ⟨inZone, rfl⟩ := (mem_zonesOf (List.ne_nil_of_mem hnode)).mp hnodes
  have hlisted := List.mem_of_mem_filter (mem_nodesOfZone.mp hnode)
  exact s.named _ hlisted

/-- What a start leaves behind: the loop is about to begin, behind where the store was kept or came
up short, and what is owned is vouched for where it did not. -/
structure Opened (s : Start) (w : Watch) : Prop where
  phase : w.phase = .joining (s.returning || decide (s.rebuilt.ending ≠ .whole))
  members : w.membership.members = s.listed
  holding : w.membership.holding = s.owned
  filled : w.membership.filled = if s.rebuilt.ending = .whole then s.owned else ∅

theorem vouch_univ_filled (node : Bytes) (members : List Member) :
    ((({} : Membership).replaceMembers node members).vouch Finset.univ 1).filled =
      holdingsOf node members := by
  ext partition
  simp [Membership.vouch, Membership.replaceMembers]

theorem opened_served (s : Start) : s.Opened s.served := by
  have hwhole : ∀ b : Bool, (b || decide (s.rebuilt.ending ≠ .whole)) =
      if s.rebuilt.ending = .whole then b else true := by
    intro b
    split_ifs with hending
    · simp [hending]
    · simp [hending]
  by_cases hclustered : s.clustered = true
  · have hlisted : s.listed = s.members := if_pos hclustered
    have hserve : s.served = run (Watch.step s.node) {} [.replace s.members, .rebuild,
        .rebuilt (decide (s.rebuilt.ending = .whole)) s.returning] := by
      rw [served, serve, if_pos hclustered]
      rfl
    rw [hserve]
    by_cases hending : s.rebuilt.ending = .whole
    · have hdecide : decide (s.rebuilt.ending = .whole) = true := decide_eq_true hending
      rw [hdecide]
      refine ⟨?_, hlisted.symm, ?_, ?_⟩
      · rw [hwhole, if_pos hending]
        rfl
      · rw [owned, hlisted]
        rfl
      · rw [if_pos hending, owned, hlisted]
        exact vouch_univ_filled s.node s.members
    · have hdecide : decide (s.rebuilt.ending = .whole) = false := decide_eq_false hending
      rw [hdecide]
      refine ⟨?_, hlisted.symm, ?_, ?_⟩
      · rw [hwhole, if_neg hending]
        rfl
      · rw [owned, hlisted]
        rfl
      · rw [if_neg hending]
        exact Finset.empty_inter _
  · have hlisted : s.listed = [] := if_neg hclustered
    have hending : s.rebuilt.ending = .whole := by
      rw [rebuilt, if_neg hclustered]
    have hserve : s.served = run (Watch.step s.node) {} [.rebuild, .rebuilt true s.returning] := by
      rw [served, serve, if_neg hclustered, hending]
      rfl
    have howned : s.owned = Finset.univ := by
      rw [owned, hlisted]
      rfl
    rw [hserve]
    refine ⟨?_, hlisted.symm, howned.symm, ?_⟩
    · rw [hwhole, if_pos hending]
      rfl
    · rw [if_pos hending, howned]
      change ∅ ∪ Finset.univ.filter
        (fun partition : Partition => partition ∈ Finset.univ ∧ 0 ≤ 0) = _
      simp

/-- A start vouches for nothing it did not fetch exactly where it leaves nothing unread. -/
theorem vouched_served_iff :
    (∀ partition ∈ s.served.membership.filled, s.Alone ∨ s.Fetched partition) ↔ s.Fills := by
  rw [(opened_served s).filled]
  by_cases halone : s.Alone
  · exact iff_of_true (fun _ _ => Or.inl halone) (Or.inl halone)
  by_cases hnone : s.owned = ∅
  · refine iff_of_true (fun partition hmem => ?_) (Or.inr (Or.inl hnone))
    rw [hnone, ite_self] at hmem
    exact absurd hmem (Finset.notMem_empty _)
  have hclustered : s.clustered = true := by
    by_contra hno
    refine halone ?_
    rw [Alone, listed, if_neg hno]
    exact Nat.zero_lt_two
  have hreads : (∀ partition ∈ if s.rebuilt.ending = .whole then s.owned else ∅,
      s.Alone ∨ s.Fetched partition) ↔ (s.rebuilt.ending = .whole → s.ReadsAll s.rebuilt) := by
    constructor
    · intro h hending table htable partition howned
      rw [if_pos hending] at h
      exact (h partition howned).resolve_left halone table htable
    · intro h partition hmem
      split_ifs at hmem with hending
      · exact Or.inr fun table htable => h hending table htable partition hmem
      · exact absurd hmem (Finset.notMem_empty _)
  obtain ⟨partition, howned⟩ := Finset.nonempty_iff_ne_empty.mpr hnone
  have hfills : s.Fills ↔ s.tables.names = [] ∧ if s.zones.length < 2 then s.elsewhere = []
      else s.NamesAll 1 s.zones.tail { tables := s.tables } :=
    (or_iff_right halone).trans (or_iff_right hnone)
  rw [hreads, hfills, rebuilt, if_pos hclustered, rebuild]
  by_cases hkept : s.tables.names = []
  · rw [if_neg (not_not.mpr hkept)]
    by_cases hzones : s.zones.length < 2
    · -- nothing was read, so there must be no table
      rw [if_pos hzones, if_pos hzones]
      constructor
      · intro h
        refine ⟨hkept, List.eq_nil_iff_forall_not_mem.mpr fun table htable => ?_⟩
        obtain ⟨share, hshare, -⟩ := h rfl table (Or.inr htable) partition howned
        cases hshare
      · rintro ⟨-, helsewhere⟩ - table (htable | htable)
        · exact absurd (hkept ▸ htable) List.not_mem_nil
        · exact absurd (helsewhere ▸ htable) List.not_mem_nil
    · rw [if_neg hzones, if_neg hzones]
      have htail : ∀ nodes ∈ s.zones.tail, ∀ node ∈ nodes, node ≠ [] := fun nodes hnodes =>
        ne_nil_of_mem_zones nodes (List.mem_of_mem_tail hnodes)
      rw [readsAll_rebuildFrom htail 1 fun hwhole => by cases hwhole]
      exact ⟨fun h => ⟨hkept, h⟩, fun h => h.2⟩
  · rw [if_pos hkept]
    refine iff_of_false (fun h => ?_) fun h => hkept h.1
    obtain ⟨table, htable⟩ := List.exists_mem_of_ne_nil _ hkept
    obtain ⟨share, hshare, -⟩ := h rfl table (Or.inl htable) partition howned
    cases hshare

/-! ### Until the first pass -/

/-- The loop is behind from its start on: the store was kept, or came up short. -/
def behind (s : Start) : Bool := s.returning || decide (s.rebuilt.ending ≠ .whole)

/-- What is known until the first pass is begun. -/
structure Early (s : Start) (w : Watch) : Prop where
  phase : w.phase = .joining s.behind ∨ w.phase = .waiting ∨ w.phase = .deciding
  holding : w.membership.holding = holdingsOf s.node w.membership.members
  filled : w.membership.filled ⊆ s.served.membership.filled
  /-- Where no attempts are left, the node lacked nothing of the membership it saw last. -/
  seen : w.phase = .waiting → w.attempts = 0 → 2 ≤ w.seen.length →
    ∀ partition ∈ holdingsOf s.node w.seen, ¬s.Wants partition

theorem early_served (s : Start) : s.Early s.served where
  phase := Or.inl (opened_served s).phase
  holding := by
    rw [(opened_served s).holding, (opened_served s).members]
    rfl
  filled := Finset.Subset.refl _
  seen hphase := by
    rw [(opened_served s).phase] at hphase
    cases hphase

variable {w : Watch}

theorem Early.step (h : s.Early w) {e : EarlyEvent} (hstart : s.StartsOverNothing w e) :
    s.Early (s.step w e) := by
  cases e with
  | replace members =>
    exact ⟨h.phase, rfl, Finset.inter_subset_left.trans h.filled, h.seen⟩
  | register => exact ⟨h.phase, h.holding, h.filled, h.seen⟩
  | start =>
    unfold Start.step Watch.step EarlyEvent.watched
    dsimp only
    split
    · next behind hphase =>
      split_ifs with hbehind
      · exact ⟨Or.inr (Or.inl rfl), h.holding, h.filled, fun _ hnone => by cases hnone⟩
      · refine ⟨Or.inr (Or.inl rfl), h.holding, h.filled, fun _ _ hmany partition hmem => ?_⟩
        rw [Bool.not_eq_true] at hbehind
        rw [hbehind] at hphase
        refine hstart rfl hphase hmany partition ?_
        rw [h.holding]
        exact hmem
    · exact h
  | tick =>
    unfold Start.step Watch.step EarlyEvent.watched
    dsimp only
    split
    · next hphase =>
      split_ifs with hdiffers hattempts
      · exact ⟨h.phase, h.holding, h.filled, fun _ hnone => by cases hnone⟩
      · exact ⟨Or.inr (Or.inr rfl), h.holding, h.filled, fun hno => by cases hno⟩
      · exact ⟨h.phase, h.holding, h.filled, h.seen⟩
    · exact h

theorem Early.scheduled (h : s.Early w) : s.Scheduled w := by
  intro hphase hmany partition hmem hwants
  by_contra hno
  rw [not_or, Nat.not_lt, Nat.le_zero] at hno
  obtain ⟨hattempts, hsame⟩ := hno
  have hseen : w.seen = w.membership.members := by
    unfold Watch.Differs at hsame
    rw [not_or, Bool.not_eq_false] at hsame
    exact sameMembership_iff.mp hsame.1
  rw [h.holding, ← hseen] at hmem
  rw [← hseen] at hmany
  exact h.seen hphase hattempts hmany partition hmem hwants

/-- A loop that begins over something the node lacks, with nothing to do, is the end of it. -/
theorem startsOverNothing_of_scheduled {e : EarlyEvent} (h : s.Scheduled (s.step w e)) :
    s.StartsOverNothing w e := by
  rintro rfl hphase hmany partition hmem hwants
  have hstep : s.step w .start = { w with
      phase := .waiting
      seen := w.membership.members
      registered := w.registrations
      attempts := 0 } := by
    unfold Start.step Watch.step EarlyEvent.watched
    dsimp only
    rw [hphase]
    rfl
  rw [hstep] at h
  rcases h rfl hmany partition hmem hwants with hattempts | hdiffers
  · exact absurd hattempts (Nat.lt_irrefl 0)
  · rcases hdiffers with hother | hagain
    · exact absurd (sameMembership_iff.mpr rfl) (ne_of_eq_of_ne hother Bool.false_ne_true)
    · exact hagain rfl

/-! ### What is answered until then -/

/-- A node that lacks a partition and does not vouch for it says so, exactly where it has the table
and its family. -/
theorem answeredShort_iff {J : JsonCodec} {a : Sought} {m : Membership}
    (hheld : partitionOf a.key ∈ m.holding) (hlacks : partitionOf a.key ∉ m.filled) :
    a.AnsweredShort J m ↔
      a.store.tables.has a.table = true ∧ a.table ∈ a.store.disk.families := by
  have hshort : ∀ n : Node, n.holding = m.holding → n.filled = m.filled →
      n.isShortOf (partitionOf a.key) = true := by
    intro n hholding hfilled
    refine decide_eq_true ⟨?_, ?_⟩
    · rwa [hholding]
    · rwa [hfilled]
  constructor
  · intro h
    -- a scan of the partition and a read of the store are enough to tell
    let n : Node := { store := a.store, holding := m.holding, filled := m.filled }
    let request : Request :=
      { method := .get
        path := rangePath a.table
        query := ascii "partition=" ++ Bytes.decimal (partitionOf a.key)
        forwarded := true }
    have hreads : request.Reads true (rangePath a.table) := ⟨Or.inl rfl, rfl, rfl⟩
    have hnamed : Scan.readPartition request.query = some (partitionOf a.key) :=
      Scan.readPartition_named _
    obtain ⟨-, hscan, hown⟩ := h n rfl rfl rfl {} rfl request
    have hhas : n.store.tables.has a.table = true := by
      have hanswer := hscan hreads hnamed
      by_contra hno
      rw [Node.respond_forwardedScan hreads hnamed, if_neg hno] at hanswer
      have hstatus : (404 : ℕ) = 503 := congrArg Response.status hanswer
      omega
    exact ⟨hhas, (Node.readHere_short_iff rfl hhas (hshort n rfl rfl)).mp hown⟩
  · rintro ⟨hhas, hopen⟩ n hstore hholding hfilled w hdb request
    have hlacking := hshort n hholding hfilled
    rw [← hstore] at hhas hopen
    have hown := (Node.readHere_short_iff hdb hhas hlacking).mpr hopen
    refine ⟨fun hreads hparsed hnone => ?_, fun hreads hnamed => ?_, hown⟩
    · obtain ⟨record, hparse⟩ := hparsed
      rw [Node.respond_forwarded hreads, hparse]
      exact hown hnone
    · rw [Node.respond_forwardedScan hreads hnamed, if_pos hhas, if_pos hlacking]

/-- What a node answers, where it vouches for what it fetched alone. -/
theorem answered_iff_knows {J : JsonCodec} {a : Sought}
    (hvouched : ∀ partition ∈ w.membership.filled, s.Alone ∨ s.Fetched partition) :
    (partitionOf a.key ∈ w.membership.holding → s.Wants (partitionOf a.key) →
      a.AnsweredShort J w.membership) ↔ s.Knows a w := by
  refine forall₂_congr fun hheld hwants => answeredShort_iff hheld fun hmem => ?_
  rcases hvouched _ hmem with halone | hfetched
  · exact hwants.1 halone
  · exact hwants.2 hfetched

end Start

/-- **In which starts a node vouches for no more than it fetched** until its first pass, says that
it is short of the rest, and has a pass to come for it. -/
theorem starts_iff (J : JsonCodec) (s : Start) (a : Sought) (es : List EarlyEvent) :
    Always s.step (s.Honest J a) s.served es ↔
      s.Fills ∧ Throughout s.step s.StartsOverNothing s.served es ∧
        Always s.step (s.Knows a) s.served es := by
  have hscheduled : Always s.step s.Scheduled s.served es ↔
      Throughout s.step s.StartsOverNothing s.served es :=
    always_iff_throughout (Q := fun _ => True) (I := s.Early) (fun _ h => h.scheduled)
      (fun _ _ h _ hstart => h.step hstart) (fun _ _ _ _ h =>
        Start.startsOverNothing_of_scheduled h)
      s.early_served (always_iff.mpr fun _ _ _ => trivial)
  constructor
  · intro h
    refine ⟨Start.vouched_served_iff.mp h.first.vouched, ?_, ?_⟩
    · exact hscheduled.mp (Always.mono (fun _ honest => honest.scheduled) h)
    · exact Always.mono (fun _ honest =>
        (Start.answered_iff_knows honest.vouched).mp honest.answered) h
  · rintro ⟨hfills, hstarts, hknows⟩
    have hearly : Always s.step s.Early s.served es :=
      Throughout.always (fun _ _ h hstart => h.step hstart) s.early_served hstarts
    refine Always.mono ?_ (hearly.and hknows)
    rintro w ⟨hw, hasks⟩
    have hvouched : ∀ partition ∈ w.membership.filled, s.Alone ∨ s.Fetched partition :=
      fun partition hmem => Start.vouched_served_iff.mpr hfills partition (hw.filled hmem)
    exact ⟨hvouched, (Start.answered_iff_knows hvouched).mpr hasks, hw.scheduled⟩

/-! ### Two nodes of one zone, and a store that was kept -/

/-- A node that comes with an empty store into a zone of two, where the other has a table. -/
def intoOneZone : Start where
  node := ascii "a"
  zone := ascii "z"
  members := twoNodes
  named := by decide +kernel
  tables := ∅
  elsewhere := [ascii "t"]
  schema _ := none
  walk _ _ := .short

/-- A node that comes back with a table, into a cluster of two zones. -/
def withStoreKept : Start where
  node := ascii "a"
  zone := ascii "z"
  members := [⟨ascii "a", ascii "z"⟩, ⟨ascii "b", ascii "y"⟩]
  named := by decide +kernel
  tables := (Schema.create ∅ ⟨ascii "t", []⟩ ⟨1, 1⟩)
  elsewhere := [ascii "t"]
  schema _ := none
  walk _ _ := .short

/-- Both vouch for a partition that they fetched nothing of, and the first has no pass to run. -/
theorem not_honest_starts :
    (movedPartition ∈ intoOneZone.served.membership.filled ∧ intoOneZone.Wants movedPartition ∧
      (run intoOneZone.step intoOneZone.served [.start, .tick]).phase = .waiting ∧
      (run intoOneZone.step intoOneZone.served [.start, .tick]).attempts = 0 ∧
      ∀ J a, ¬Always intoOneZone.step (intoOneZone.Honest J a) intoOneZone.served []) ∧
    movedPartition ∈ withStoreKept.served.membership.filled ∧ withStoreKept.Wants movedPartition ∧
      ∀ J a, ¬Always withStoreKept.step (withStoreKept.Honest J a) withStoreKept.served [] := by
  have hdishonest : ∀ {s : Start} {partition : Partition}, partition ∈ s.served.membership.filled →
      s.Wants partition → ∀ J a, ¬Always s.step (s.Honest J a) s.served [] := by
    intro s partition hmem hwants J a h
    rcases h.first.vouched partition hmem with halone | hfetched
    · exact hwants.1 halone
    · exact hwants.2 hfetched
  have hzone : movedPartition ∈ intoOneZone.served.membership.filled := by
    rw [(Start.opened_served intoOneZone).filled, if_pos (by decide +kernel)]
    exact holdings_movedPartition.1
  have hzoneWants : intoOneZone.Wants movedPartition := by
    refine ⟨by decide, fun hfetched => ?_⟩
    obtain ⟨share, hshare, -⟩ := hfetched (ascii "t") (Or.inr (by decide +kernel))
    have hnone : intoOneZone.rebuilt.shares = [] := by decide +kernel
    rw [hnone] at hshare
    cases hshare
  have hkept : movedPartition ∈ withStoreKept.served.membership.filled := by
    have howned : (ownersOf (partitionName movedPartition) withStoreKept.members).any
        (·.node = ascii "a") = true := by decide +kernel
    have hfew : ¬withStoreKept.listed.length < 2 := by decide +kernel
    rw [(Start.opened_served withStoreKept).filled, if_pos (by decide +kernel),
      Start.owned, holdingsOf, if_neg hfew, Finset.mem_filter]
    exact ⟨Finset.mem_univ _, howned⟩
  have hkeptWants : withStoreKept.Wants movedPartition := by
    refine ⟨by decide, fun hfetched => ?_⟩
    obtain ⟨share, hshare, -⟩ := hfetched (ascii "t") (Or.inr (by decide +kernel))
    have hnone : withStoreKept.rebuilt.shares = [] := by decide +kernel
    rw [hnone] at hshare
    cases hshare
  exact ⟨⟨hzone, hzoneWants, by decide +kernel, by decide +kernel, hdishonest hzone hzoneWants⟩,
    hkept, hkeptWants, hdishonest hkept hkeptWants⟩

end AsyncDatabase
