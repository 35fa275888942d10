import AsyncDatabase.Library.JsonText
import AsyncDatabase.Library.Newest
import AsyncDatabase.Library.Run
import AsyncDatabase.Repository.Effect

/-!
# Merging schemas

What `schema::merge` is as an operation on schemas, name by name: the newer of two entries, by the
stamps they bear. Where no two entries of a name bear one stamp it is a join, so nodes that have
heard the same schemas have the same one, whatever the order (`Gossip`). `merge_laws` says so, and
that the changes a merge reports are what it did to the names and so to the column families.
-/

namespace AsyncDatabase

open Bytes (ascii)
open Machine Newest Throwing

/-- Where an entry stands among the entries of its name. -/
def Entry.rank (entry : Entry) : ℤ ×ₗ ℕ := entry.stamp.rank

namespace Schema

/-- The entries schemas have for a name. -/
def entriesOf (S : Set Schema) (name : Bytes) : Set Entry :=
  {entry | ∃ s ∈ S, s.entries[name]? = some entry}

/-- Equal stamps on one name mean equal entries. -/
def Coherent (S : Set Schema) : Prop := ∀ name, Newest.Coherent Entry.rank (entriesOf S name)

theorem mergeEntry_eq_join (incoming held : Option Entry) :
    mergeEntry incoming held = join Entry.rank incoming held := by
  cases incoming with
  | none => rfl
  | some incoming =>
    cases held with
    | none => rfl
    | some held =>
      have htakes : takes incoming (some held) = true ↔ held.rank < incoming.rank := by
        rw [takes, Option.all_some, Version.isNewer_iff_rank_lt]
        rfl
      simp only [mergeEntry, join, htakes]

/-- **A merge, name by name**: the newer of the two entries. -/
theorem getElem?_merge (s named : Schema) (name : Bytes) :
    (s.merge named).1.entries[name]? = join Entry.rank named.entries[name]? s.entries[name]? :=
  (getElem?_mergeEntries _ _ _).trans (mergeEntry_eq_join _ _)

theorem entriesOf_pair (s t : Schema) (name : Bytes) :
    entriesOf {s, t} name =
      {entry | t.entries[name]? = some entry} ∪ {entry | s.entries[name]? = some entry} := by
  ext entry
  simp only [entriesOf, Set.mem_insert_iff, Set.mem_singleton_iff, exists_eq_or_imp, exists_eq_left,
    Set.mem_ofPred_eq, Set.mem_union]
  exact or_comm

theorem isNewest_merge (s t : Schema) (name : Bytes) :
    IsNewest Entry.rank (entriesOf {s, t} name) (s.merge t).1.entries[name]? := by
  rw [getElem?_merge, entriesOf_pair]
  exact (newest_toSet _ _).join (newest_toSet _ _)

theorem merge_self (s : Schema) : (s.merge s).1 = s := by
  ext1 name
  rw [getElem?_merge, join_self]

theorem merge_comm {S : Set Schema} (hS : Coherent S) {s t : Schema} (hs : s ∈ S) (ht : t ∈ S) :
    (s.merge t).1 = (t.merge s).1 := by
  ext1 name
  rw [getElem?_merge, getElem?_merge]
  exact join_comm fun x y hx hy => hS name x ⟨t, ht, hx⟩ y ⟨s, hs, hy⟩

theorem merge_assoc (s t u : Schema) :
    ((s.merge t).1.merge u).1 = (s.merge (t.merge u).1).1 := by
  ext1 name
  rw [getElem?_merge, getElem?_merge, getElem?_merge, getElem?_merge, join_assoc]

/-- The changes a merge reports are the names whose liveness it changed, each with its new one. -/
theorem mem_changes_iff_has {s t : Schema} {change : Change} :
    change ∈ (s.merge t).2 ↔
      (s.merge t).1.has change.name = change.live ∧ s.has change.name ≠ change.live := by
  constructor
  · intro hmem
    obtain ⟨entry, hentry, htakes, hlive, hhas⟩ := mem_changes_iff.mp hmem
    have hfind := Maps.find?_key_eq_some (nodup_changes s t) hmem
    rw [has_merge, hfind]
    exact ⟨rfl, hhas⟩
  · rintro ⟨hnow, hhas⟩
    rw [has_merge] at hnow
    cases hfind : (s.merge t).2.find? (·.name = change.name) with
    | none =>
      rw [hfind] at hnow
      exact absurd hnow hhas
    | some other =>
      rw [hfind] at hnow
      obtain rfl : other = change := by
        have hname : other.name = change.name := by simpa using List.find?_some hfind
        cases other
        cases change
        cases hname
        cases hnow
        rfl
      exact List.mem_of_find?_eq_some hfind

end Schema

/-! ### Nodes that merge one another's schemas -/

/-- Nodes that take one another's schemas: what each holds, whose it has heard of, and the answers
that are on their way. -/
structure Gossip (ι : Type) where
  schema : ι → Schema
  heard : ι → Set ι
  answers : List (Schema × Set ι) := []

inductive GossipEvent (ι : Type) where
  /-- A node answers with the schema it holds. -/
  | answer (i : ι)
  /-- A node merges an answer, late, again, or never. -/
  | merge (i : ι) (number : ℕ)

namespace Gossip

variable {ι : Type} [DecidableEq ι]

def step (g : Gossip ι) : GossipEvent ι → Gossip ι
  | .answer i => { g with answers := g.answers ++ [(g.schema i, g.heard i)] }
  | .merge i number =>
    match g.answers[number]? with
    | none => g
    | some (named, heard) =>
      { g with
        schema := Function.update g.schema i ((g.schema i).merge named).1
        heard := Function.update g.heard i (heard ∪ g.heard i) }

/-- Each node has heard of its own schema alone. -/
def start (schema : ι → Schema) : Gossip ι where
  schema
  heard i := {i}

/-- A schema has the newest entry, of every name, of the schemas that were heard of. -/
def Settled (schema : ι → Schema) (heard : Set ι) (s : Schema) : Prop :=
  ∀ name, IsNewest Entry.rank (Schema.entriesOf (schema '' heard) name) s.entries[name]?

omit [DecidableEq ι] in
theorem settled_union {schema : ι → Schema} {heard heard' : Set ι} {s named : Schema}
    (hs : Settled schema heard s) (hnamed : Settled schema heard' named) :
    Settled schema (heard' ∪ heard) (s.merge named).1 := by
  intro name
  have hunion : Schema.entriesOf (schema '' (heard' ∪ heard)) name =
      Schema.entriesOf (schema '' heard') name ∪ Schema.entriesOf (schema '' heard) name := by
    ext entry
    simp only [Schema.entriesOf, Set.image_union, Set.mem_union, Set.mem_ofPred_eq, or_and_right,
      exists_or]
  rw [Schema.getElem?_merge, hunion]
  exact (hnamed name).join (hs name)

/-- Every node, and every answer on its way, has the newest of what it has heard of. -/
structure Sound (schema : ι → Schema) (g : Gossip ι) : Prop where
  nodes : ∀ i, Settled schema (g.heard i) (g.schema i)
  answers : ∀ answer ∈ g.answers, Settled schema answer.2 answer.1

omit [DecidableEq ι] in
theorem sound_start (schema : ι → Schema) : (start schema).Sound schema where
  nodes i name := by
    have hone : Schema.entriesOf (schema '' {i}) name =
        {entry | (schema i).entries[name]? = some entry} := by
      ext entry
      simp [Schema.entriesOf]
    rw [start, hone]
    exact newest_toSet _ _
  answers answer h := by cases h

theorem Sound.step {schema : ι → Schema} {g : Gossip ι} (h : g.Sound schema) (e : GossipEvent ι) :
    (g.step e).Sound schema := by
  cases e with
  | answer i =>
    refine ⟨h.nodes, fun answer hmem => ?_⟩
    rcases List.mem_append.mp hmem with hold | hnew
    · exact h.answers answer hold
    · rw [List.mem_singleton.mp hnew]
      exact h.nodes i
  | merge i number =>
    rw [Gossip.step]
    cases hanswer : g.answers[number]? with
    | none => exact h
    | some answer =>
      refine ⟨fun j => ?_, h.answers⟩
      by_cases hj : j = i
      · subst hj
        simp only [Function.update_self]
        exact settled_union (h.nodes j) (h.answers _ (List.mem_of_getElem? hanswer))
      · simp only [Function.update_of_ne hj]
        exact h.nodes j

/-- **Nodes that have heard of the same schemas have the same one**, whatever was merged where and
in which order. -/
theorem converges {schema : ι → Schema} (hcoherent : Schema.Coherent (Set.range schema))
    (es : List (GossipEvent ι)) {i j : ι}
    (hheard : (run step (start schema) es).heard i = (run step (start schema) es).heard j) :
    (run step (start schema) es).schema i = (run step (start schema) es).schema j := by
  have hsound : (run step (start schema) es).Sound schema :=
    Throughout.invariant (C := fun _ _ => True) (fun g e hg _ => hg.step e) (sound_start schema)
      (throughout_true _ es)
  ext1 name
  refine (hsound.nodes i name).unique ?_ (hheard ▸ hsound.nodes j name)
  rintro x ⟨s, hs, hx⟩ y ⟨t, ht, hy⟩ heq
  exact hcoherent name x ⟨s, Set.image_subset_range _ _ hs, hx⟩ y
    ⟨t, Set.image_subset_range _ _ ht, hy⟩ heq

end Gossip

/-! ### The families of a merge -/

theorem Schema.merge_has_of_both {s t : Schema} {name : Bytes} (hs : s.has name = true)
    (ht : t.has name = true) : (s.merge t).1.has name = true := by
  obtain ⟨entry, table, hentry, htable⟩ := Schema.has_iff.mp hs
  obtain ⟨entry', table', hentry', htable'⟩ := Schema.has_iff.mp ht
  refine Schema.has_iff.mpr ?_
  rw [Schema.getElem?_merge, hentry, hentry', join]
  split_ifs
  · exact ⟨entry', table', rfl, htable'⟩
  · exact ⟨entry, table, rfl, htable⟩

/-- A store has a family for each live name, and the default one. -/
def Store.Matched (s : Store) : Prop :=
  ∀ name, name ∈ s.disk.families ↔ s.tables.has name = true ∨ name = defaultFamily

/-- A merge that goes through leaves each name's family as the name's liveness says. -/
theorem Store.families_mergeSchema {J : JsonCodec} {db : Database} {named : Schema} {s t : Store}
    {n : ℕ} (h : mergeSchema J db named s = .ok n t) :
    t.tables = (s.tables.merge named).1 ∧ n = (s.tables.merge named).2.length ∧
      (∀ change ∈ (s.tables.merge named).2, AltersFamily db s change) ∧
      ∀ name, t.disk.families[name]? =
        match (s.tables.merge named).2.find? (·.name = name) with
        | none => s.disk.families[name]?
        | some change => if change.live then some (s.disk.families[name]?.getD ∅) else none := by
  rcases mergeSchema_cases J db named s with ⟨⟨halters, -⟩, hrun⟩ | ⟨-, e, families, hrun⟩ |
    ⟨-, e, hrun⟩
  · rw [hrun] at h
    cases h
    refine ⟨by simp, rfl, halters, fun name => ?_⟩
    rw [families_writeDown, getElem?_foldl_altered _ (Schema.nodup_changes s.tables named)]
    rfl
  · rw [hrun] at h
    cases h
  · rw [hrun] at h
    cases h

section Merged

variable {J : JsonCodec} {db : Database} {named : Schema} {s t : Store} {n : ℕ}

theorem Store.Matched.mem_default (h : s.Matched) : defaultFamily ∈ s.disk.families :=
  (h _).mpr (Or.inr rfl)

/-- A name that did not go the other way keeps its family as it was. -/
theorem Store.families_of_unchanged (h : mergeSchema J db named s = .ok n t) {name : Bytes}
    (hno : ∀ change ∈ (s.tables.merge named).2, change.name ≠ name) :
    t.disk.families[name]? = s.disk.families[name]? := by
  obtain ⟨-, -, -, hfamilies⟩ := families_mergeSchema h
  have hnone : (s.tables.merge named).2.find? (·.name = name) = none := by
    rw [List.find?_eq_none]
    intro change hchange hname
    exact hno change hchange (by simpa using hname)
  rw [hfamilies, hnone]

/-- A name that went the other way has a family where it is live now. -/
theorem Store.mem_families_of_change (h : mergeSchema J db named s = .ok n t)
    {change : Schema.Change} (hchange : change ∈ (s.tables.merge named).2) :
    change.name ∈ t.disk.families ↔ change.live = true := by
  obtain ⟨-, -, -, hfamilies⟩ := families_mergeSchema h
  rw [← Std.ExtTreeMap.isSome_getElem?_iff_mem, hfamilies,
    Maps.find?_key_eq_some (Schema.nodup_changes s.tables named) hchange]
  cases hlive : change.live with
  | true => simp [hlive]
  | false => simp [hlive]

/-- Where no call of the database fails, a merge that does not drop the default family goes
through. -/
theorem Store.Matched.mergeSchema_completes (hmatched : s.Matched)
    (hdefault : ⟨defaultFamily, false⟩ ∉ (s.tables.merge named).2) :
    ∃ n t, mergeSchema J {} named s = .ok n t := by
  have halters : ∀ change ∈ (s.tables.merge named).2, AltersFamily {} s change := by
    intro change hchange
    by_contra hno
    obtain rfl := (altersFamily_sound_iff hmatched.mem_default change).mp hno
    exact hdefault hchange
  rcases mergeSchema_cases J {} named s with ⟨-, hrun⟩ | ⟨⟨change, hchange, hno⟩, -⟩ |
    ⟨⟨-, hput⟩, -⟩
  · exact ⟨_, _, hrun⟩
  · exact absurd (halters change hchange) hno
  · exact absurd rfl hput

/-- The default family is none that a merge drops. -/
theorem Store.Matched.ne_default (hmatched : s.Matched) (h : mergeSchema J db named s = .ok n t)
    {change : Schema.Change} (hchange : change ∈ (s.tables.merge named).2)
    (hlive : change.live = false) : change.name ≠ defaultFamily := by
  obtain ⟨-, -, halters, -⟩ := families_mergeSchema h
  intro hname
  have hdrops := halters change hchange
  rw [AltersFamily, if_neg (by simp [hlive]), hname, dropStatus,
    if_pos (Eq.refl defaultFamily)] at hdrops
  rcases hdrops with hno | hno
  · exact hno hmatched.mem_default
  · cases hno

/-- A merge that goes through leaves the families matching the live names. -/
theorem Store.Matched.mergeSchema (hmatched : s.Matched) (h : mergeSchema J db named s = .ok n t) :
    t.Matched := by
  intro name
  obtain ⟨htables, -, -, -⟩ := families_mergeSchema h
  rw [htables]
  by_cases hchanges : ∃ change ∈ (s.tables.merge named).2, change.name = name
  · obtain ⟨change, hchange, rfl⟩ := hchanges
    rw [mem_families_of_change h hchange, (Schema.mem_changes_iff_has.mp hchange).1]
    refine ⟨Or.inl, fun hlive => hlive.elim id fun hname => ?_⟩
    by_contra hno
    exact hmatched.ne_default h hchange (by simpa using hno) hname
  · have hsame : s.tables.has name = (s.tables.merge named).1.has name := by
      by_contra hno
      exact hchanges ⟨⟨name, _⟩, Schema.mem_changes_iff_has.mpr ⟨rfl, hno⟩, rfl⟩
    rw [← hsame, ← hmatched name, ← Std.ExtTreeMap.isSome_getElem?_iff_mem,
      families_of_unchanged h fun change hchange hname => hchanges ⟨change, hchange, hname⟩,
      Std.ExtTreeMap.isSome_getElem?_iff_mem]

/-- A family goes only for a tombstone that is newer than the live entry held. -/
theorem Store.tombstone_of_dropped (h : mergeSchema J db named s = .ok n t) {name : Bytes}
    (hbefore : name ∈ s.disk.families) (hafter : name ∉ t.disk.families) :
    ∃ held tombstone, s.tables.entries[name]? = some held ∧ held.declared.isSome = true ∧
      named.entries[name]? = some tombstone ∧ tombstone.declared = none ∧
      tombstone.stamp.isNewer held.stamp = true := by
  by_cases hchanges : ∃ change ∈ (s.tables.merge named).2, change.name = name
  · obtain ⟨change, hchange, rfl⟩ := hchanges
    rw [mem_families_of_change h hchange] at hafter
    have hgone : change.live = false := by simpa using hafter
    obtain ⟨tombstone, htombstone, htakes, hlive, hhas⟩ := Schema.mem_changes_iff.mp hchange
    rw [hgone] at hlive hhas
    obtain ⟨held, table, hheld, htable⟩ := Schema.has_iff.mp (by simpa using hhas)
    rw [hheld, Schema.takes, Option.all_some] at htakes
    exact ⟨held, tombstone, hheld, by rw [htable]; rfl, htombstone,
      Option.isNone_iff_eq_none.mp (by simpa using hlive.symm), htakes⟩
  · rw [← Std.ExtTreeMap.isSome_getElem?_iff_mem] at hbefore hafter
    rw [families_of_unchanged h fun change hchange hname => hchanges ⟨change, hchange, hname⟩]
      at hafter
    exact absurd hbefore hafter

/-- The family of a name that is live on both sides stays as it is. -/
theorem Store.families_of_has_both (h : mergeSchema J db named s = .ok n t) {name : Bytes}
    (hs : s.tables.has name = true) (hnamed : named.has name = true) :
    t.disk.families[name]? = s.disk.families[name]? := by
  refine families_of_unchanged h fun change hchange hname => ?_
  have hboth := Schema.mem_changes_iff_has.mp hchange
  rw [hname, Schema.merge_has_of_both hs hnamed, hs] at hboth
  exact hboth.2 hboth.1

end Merged

namespace Schema

/-- What `schema::merge` and `merge_schema` do to schemas of which no two entries of a name bear one
stamp. -/
structure MergeLaws (J : JsonCodec) (S : Set Schema) : Prop where
  /-- Each name has the entry with the greater term and count. -/
  newest : ∀ s ∈ S, ∀ t ∈ S, ∀ name,
    IsNewest Entry.rank (entriesOf {s, t} name) (s.merge t).1.entries[name]?
  idempotent : ∀ s ∈ S, (s.merge s).1 = s
  commutative : ∀ s ∈ S, ∀ t ∈ S, (s.merge t).1 = (t.merge s).1
  associative : ∀ s ∈ S, ∀ t ∈ S, ∀ u ∈ S,
    ((s.merge t).1.merge u).1 = (s.merge (t.merge u).1).1
  /-- Nodes that have heard of the same schemas have the same one, after any order of merges. -/
  converges : ∀ {ι : Type} [DecidableEq ι] (start : ι → Schema), (∀ i, start i ∈ S) →
    ∀ (es : List (GossipEvent ι)) (i j : ι),
      (run Gossip.step (Gossip.start start) es).heard i =
        (run Gossip.step (Gossip.start start) es).heard j →
      (run Gossip.step (Gossip.start start) es).schema i =
        (run Gossip.step (Gossip.start start) es).schema j
  /-- The changes are the names that went the other way, each once and with its new liveness. -/
  reports : ∀ s ∈ S, ∀ t ∈ S, ((s.merge t).2.map Change.name).Nodup ∧ ∀ change,
    change ∈ (s.merge t).2 ↔
      (s.merge t).1.has change.name = change.live ∧ s.has change.name ≠ change.live
  /-- A merge that goes through leaves the store with the merged schema, and answers how many names
  went the other way. -/
  merged : ∀ (db : Database) (s t : Store) (n : ℕ), s.tables ∈ S → ∀ named ∈ S,
    Store.mergeSchema J db named s = .ok n t →
    t.tables = (s.tables.merge named).1 ∧ n = (s.tables.merge named).2.length
  /-- Where no call of the database fails it goes through, but for a drop of the default family. -/
  completes : ∀ s : Store, s.tables ∈ S → ∀ named ∈ S, s.Matched →
    ⟨defaultFamily, false⟩ ∉ (s.tables.merge named).2 →
    ∃ n t, Store.mergeSchema J {} named s = .ok n t
  /-- A merge that goes through leaves the families matching the live names. -/
  matched : ∀ (db : Database) (s t : Store) (n : ℕ), s.tables ∈ S → ∀ named ∈ S,
    Store.mergeSchema J db named s = .ok n t → s.Matched → t.Matched
  /-- A family goes only for a tombstone that is newer than the live entry held. -/
  dropped : ∀ (db : Database) (s t : Store) (n : ℕ), s.tables ∈ S → ∀ named ∈ S,
    Store.mergeSchema J db named s = .ok n t → s.Matched → ∀ name, name ∈ s.disk.families →
    name ∉ t.disk.families → ∃ held tombstone, s.tables.entries[name]? = some held ∧
      held.declared.isSome = true ∧ named.entries[name]? = some tombstone ∧
      tombstone.declared = none ∧ tombstone.stamp.isNewer held.stamp = true
  /-- The family of a name that is live on both sides stays as it is. -/
  kept : ∀ (db : Database) (s t : Store) (n : ℕ), s.tables ∈ S → ∀ named ∈ S,
    Store.mergeSchema J db named s = .ok n t → ∀ name, s.tables.has name = true →
    named.has name = true → t.disk.families[name]? = s.disk.families[name]?

end Schema

/-- **Schema merge is a join, and it reports exactly what it changed.** -/
theorem merge_laws (J : JsonCodec) {S : Set Schema} (hS : Schema.Coherent S) :
    Schema.MergeLaws J S where
  newest s _ t _ name := Schema.isNewest_merge s t name
  idempotent s _ := Schema.merge_self s
  commutative s hs t ht := Schema.merge_comm hS hs ht
  associative s _ t _ u _ := Schema.merge_assoc s t u
  converges start hstart es i j hheard := by
    refine Gossip.converges (fun name x hx y hy heq => hS name x ?_ y ?_ heq) es hheard
    · obtain ⟨-, ⟨i, rfl⟩, hentry⟩ := hx
      exact ⟨start i, hstart i, hentry⟩
    · obtain ⟨-, ⟨j, rfl⟩, hentry⟩ := hy
      exact ⟨start j, hstart j, hentry⟩
  reports s _ t _ := ⟨Schema.nodup_changes s t, fun change => Schema.mem_changes_iff_has⟩
  merged db s t n _ named _ hrun := by
    obtain ⟨htables, hcount, -, -⟩ := Store.families_mergeSchema hrun
    exact ⟨htables, hcount⟩
  completes s _ named _ hmatched hdefault := hmatched.mergeSchema_completes hdefault
  matched db s t n _ named _ hrun hmatched := hmatched.mergeSchema hrun
  dropped db s t n _ named _ hrun _ name hbefore hafter :=
    Store.tombstone_of_dropped hrun hbefore hafter
  kept db s t n _ named _ hrun name hs hnamed := Store.families_of_has_both hrun hs hnamed

/-- A table that one node has live and another has heard the delete of. -/
theorem merge_laws_delete :
    Schema.MergeLaws JsonText.codec
      {(∅ : Schema).create ⟨ascii "t", []⟩ ⟨1, 1⟩, (∅ : Schema).remove (ascii "t") ⟨1, 2⟩} := by
  refine merge_laws JsonText.codec fun name x hx y hy heq => ?_
  have hone : ∀ entry, entry ∈ Schema.entriesOf {(∅ : Schema).create ⟨ascii "t", []⟩ ⟨1, 1⟩,
      (∅ : Schema).remove (ascii "t") ⟨1, 2⟩} name →
      entry = ⟨⟨1, 1⟩, some ⟨ascii "t", []⟩⟩ ∨ entry = ⟨⟨1, 2⟩, none⟩ := by
    rintro entry ⟨s, rfl | rfl, hentry⟩
    · rw [Schema.create, Schema.getElem?_put] at hentry
      split_ifs at hentry
      · exact Or.inl (Option.some.inj hentry).symm
      · cases hentry
    · rw [Schema.remove, Schema.getElem?_put] at hentry
      split_ifs at hentry
      · exact Or.inr (Option.some.inj hentry).symm
      · cases hentry
  have hstamp : x.stamp = y.stamp := Version.rank_inj.mp heq
  rcases hone x hx with rfl | rfl
  · rcases hone y hy with rfl | rfl
    · rfl
    · exact absurd hstamp (by decide)
  · rcases hone y hy with rfl | rfl
    · exact absurd hstamp (by decide)
    · rfl

end AsyncDatabase
