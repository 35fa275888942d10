import AsyncDatabase.Library.Maps
import AsyncDatabase.Record
import AsyncDatabase.Table

/-!
# The schema

Every name a store has heard of, live or dropped, and the version each stands at
(`table/schema.h`, `table/schema.cpp`). It is held and moved as one document: `Schema.json` writes
it, `toSchema` reads it, and `toSchema_serialize` says when the second undoes the first.
-/

namespace AsyncDatabase

open Bytes (ascii)

/-- `table::entry`: the table as it stands, or nothing for the delete that took it away. -/
structure Entry where
  stamp : Version
  declared : Option Table
  deriving DecidableEq, Repr

/-- `table::schema`. A live entry stands under the name its table bears. -/
structure Schema where
  entries : Std.ExtTreeMap Bytes Entry
  named : ∀ {name : Bytes} {entry : Entry} {table : Table}, entries[name]? = some entry →
    entry.declared = some table → table.name = name

namespace Schema

/-- `table::schema::change`: a name a merge made live, or took away. -/
structure Change where
  name : Bytes
  live : Bool
  deriving DecidableEq, Repr

@[ext] theorem ext {s t : Schema} (h : ∀ name : Bytes, s.entries[name]? = t.entries[name]?) :
    s = t := by
  obtain ⟨entries, named⟩ := s
  obtain ⟨entries', named'⟩ := t
  obtain rfl : entries = entries' := Std.ExtTreeMap.ext_getElem? h
  rfl

theorem toList_inj {s t : Schema} : s.entries.toList = t.entries.toList ↔ s = t := by
  constructor
  · intro h
    obtain ⟨entries, named⟩ := s
    obtain ⟨entries', named'⟩ := t
    obtain rfl : entries = entries' := Std.ExtTreeMap.toList_inj.mp h
    rfl
  · rintro rfl
    rfl

instance : DecidableEq Schema := fun _ _ => decidable_of_iff _ toList_inj

instance : EmptyCollection Schema where
  emptyCollection := ⟨∅, fun h _ => by simp at h⟩

/-- One name put at one entry, which a table declared in it has to bear. -/
def put (s : Schema) (name : Bytes) (entry : Entry)
    (h : ∀ table, entry.declared = some table → table.name = name) : Schema where
  entries := s.entries.insert name entry
  named {name' entry' table} hentry htable := by
    rw [Std.ExtTreeMap.getElem?_insert] at hentry
    split_ifs at hentry with hname
    · obtain rfl := Std.LawfulEqCmp.eq_of_compare hname
      obtain rfl := Option.some.inj hentry
      exact h table htable
    · exact s.named hentry htable

theorem getElem?_put (s : Schema) (name : Bytes) (entry : Entry) (h) (name' : Bytes) :
    (s.put name entry h).entries[name']? =
      if name = name' then some entry else s.entries[name']? := by
  rw [put, Std.ExtTreeMap.getElem?_insert]
  simp only [Std.LawfulEqCmp.compare_eq_iff_eq]

/-! ### The operations -/

def readEntry (s : Schema) (name : Bytes) : Option Entry := s.entries[name]?

/-- The table a name stands for, where it stands for one. -/
def declared? (s : Schema) (name : Bytes) : Option Table := (s.readEntry name).bind Entry.declared

def tables (s : Schema) : List Table := s.entries.toList.filterMap fun held => held.2.declared

def names (s : Schema) : List Bytes :=
  (s.entries.toList.filter fun held => held.2.declared.isSome).map Prod.fst

def has (s : Schema) (name : Bytes) : Bool := (s.declared? name).isSome

def read (s : Schema) (name : Bytes) : Except ErrorMessage Table :=
  match s.declared? name with
  | none => .error ⟨.tableNotFound, ascii "No table named \"" ++ name ++ ascii "\"."⟩
  | some table => .ok table

def create (s : Schema) (table : Table) (stamp : Version) : Schema :=
  s.put table.name ⟨stamp, some table⟩ fun _ h => by rw [Option.some.inj h]

def remove (s : Schema) (name : Bytes) (stamp : Version) : Schema :=
  s.put name ⟨stamp, none⟩ fun _ h => by cases h

theorem has_iff {s : Schema} {name : Bytes} :
    s.has name = true ↔ ∃ entry table, s.entries[name]? = some entry ∧
    entry.declared = some table := by
  simp only [has, declared?, readEntry, Option.isSome_iff_exists, Option.bind_eq_some_iff]
  constructor
  · rintro ⟨table, entry, hentry, htable⟩
    exact ⟨entry, table, hentry, htable⟩
  · rintro ⟨entry, table, hentry, htable⟩
    exact ⟨table, entry, hentry, htable⟩

theorem mem_names_iff {s : Schema} {name : Bytes} : name ∈ s.names ↔ s.has name = true := by
  rw [names, List.mem_map, has_iff]
  constructor
  · rintro ⟨⟨name, entry⟩, hmem, rfl⟩
    rw [List.mem_filter, Std.ExtTreeMap.mem_toList_iff_getElem?_eq_some] at hmem
    obtain ⟨table, htable⟩ := Option.isSome_iff_exists.mp hmem.2
    exact ⟨entry, table, hmem.1, htable⟩
  · rintro ⟨entry, table, hentry, htable⟩
    refine ⟨(name, entry), ?_, rfl⟩
    rw [List.mem_filter, Std.ExtTreeMap.mem_toList_iff_getElem?_eq_some]
    exact ⟨hentry, by simp [htable]⟩

theorem nodup_names (s : Schema) : s.names.Nodup :=
  (Maps.nodup_keys_toList s.entries).sublist (List.filter_sublist.map _)

theorem mem_tables_iff {s : Schema} {table : Table} :
    table ∈ s.tables ↔ s.declared? table.name = some table := by
  simp only [tables, List.mem_filterMap, declared?, readEntry, Option.bind_eq_some_iff, Prod.exists,
    Std.ExtTreeMap.mem_toList_iff_getElem?_eq_some]
  constructor
  · rintro ⟨name, entry, hentry, htable⟩
    obtain rfl := s.named hentry htable
    exact ⟨entry, hentry, htable⟩
  · rintro ⟨entry, hentry, htable⟩
    exact ⟨table.name, entry, hentry, htable⟩

theorem has_of_mem_tables {s : Schema} {table : Table} {name : Bytes} (h : table ∈ s.tables)
    (hname : table.name = name) : s.has name = true := by
  rw [mem_tables_iff, hname] at h
  rw [has, h]
  rfl

theorem has_of_read {s : Schema} {name : Bytes} {table : Table} (h : s.read name = .ok table) :
    s.has name = true := by
  unfold read at h
  split at h
  · cases h
  · rename_i other hsome
    rw [has, hsome]
    rfl

theorem has_eq_false_of_read {s : Schema} {name : Bytes} {missing : ErrorMessage}
    (h : s.read name = .error missing) : s.has name = false := by
  unfold read at h
  split at h
  · rename_i hnone
    rw [has, hnone]
    rfl
  · cases h

/-! ### Merging -/

/-- Whether an entry that came in replaces what is held for its name. -/
def takes (incoming : Entry) (held : Option Entry) : Bool :=
  held.all fun held => incoming.stamp.isNewer held.stamp

/-- One turn of the loop of `merge`: the entries so far and the names that went the other way. -/
def mergeStep (merged : Std.ExtTreeMap Bytes Entry × List Change) (incoming : Bytes × Entry) :
    Std.ExtTreeMap Bytes Entry × List Change :=
  let held := merged.1[incoming.1]?
  let had := (held.bind Entry.declared).isSome
  let live := incoming.2.declared.isSome
  if !takes incoming.2 held then merged
  else (merged.1.insert incoming.1 incoming.2,
    if had ≠ live then merged.2 ++ [⟨incoming.1, live⟩] else merged.2)

def mergeEntries (held named : Std.ExtTreeMap Bytes Entry) :
    Std.ExtTreeMap Bytes Entry × List Change :=
  named.toList.foldl mergeStep (held, [])

/-- The entry a name stands at once another schema's entries came in. -/
def mergeEntry (incoming held : Option Entry) : Option Entry :=
  match incoming with
  | none => held
  | some incoming => if takes incoming held then some incoming else held

theorem getElem?_mergeEntries (held named : Std.ExtTreeMap Bytes Entry) (name : Bytes) :
    (mergeEntries held named).1[name]? = mergeEntry named[name]? held[name]? := by
  refine (Maps.look_foldl
    (fun (merged : Std.ExtTreeMap Bytes Entry × List Change) (name : Bytes) => merged.1[name]?)
    mergeStep (fun _ incoming held => mergeEntry (some incoming) held) named ?_ ?_ (held, [])
    name).trans ?_
  · rintro ⟨merged, changed⟩ name incoming -
    cases h : takes incoming merged[name]? <;> simp [mergeStep, mergeEntry, h]
  · rintro ⟨merged, changed⟩ name incoming name' - hne
    cases h : takes incoming merged[name]?
    · simp [mergeStep, h]
    · simp [mergeStep, h, Std.ExtTreeMap.getElem?_insert, Ne.symm hne]
  · cases named[name]? <;> rfl

/-- An entry of a merge is one of the two schemas' own. -/
theorem mergeEntry_cases (incoming held : Option Entry) :
    mergeEntry incoming held = incoming ∨ mergeEntry incoming held = held := by
  unfold mergeEntry
  split
  · exact Or.inr rfl
  · split_ifs
    · exact Or.inl rfl
    · exact Or.inr rfl

/-- What a merge does to one name: nothing, or the name goes the other way. -/
def changeOf (held : Std.ExtTreeMap Bytes Entry) (incoming : Bytes × Entry) : Option Change :=
  let live := incoming.2.declared.isSome
  if takes incoming.2 held[incoming.1]? ∧ (held[incoming.1]?.bind Entry.declared).isSome ≠ live then
    some ⟨incoming.1, live⟩
  else none

theorem changes_foldl_mergeStep (l : List (Bytes × Entry)) (hl : (l.map Prod.fst).Nodup)
    (held : Std.ExtTreeMap Bytes Entry) (changed : List Change) :
    (l.foldl mergeStep (held, changed)).2 = changed ++ l.filterMap (changeOf held) := by
  induction l generalizing held changed with
  | nil => simp
  | cons incoming l ih =>
    rw [List.map_cons, List.nodup_cons] at hl
    -- what is held for the names still to come is what was held at the start
    have hlater : ∀ p ∈ l, (held.insert incoming.1 incoming.2)[p.1]? = held[p.1]? := by
      intro p hp
      have hne : incoming.1 ≠ p.1 := fun h => hl.1 (List.mem_map.mpr ⟨p, hp, h.symm⟩)
      simp [Std.ExtTreeMap.getElem?_insert, hne]
    rw [List.foldl_cons, List.filterMap_cons]
    cases ht : takes incoming.2 held[incoming.1]? with
    | false =>
      have hstep : mergeStep (held, changed) incoming = (held, changed) := by simp [mergeStep, ht]
      rw [hstep, ih hl.2]
      simp [changeOf, ht]
    | true =>
      have hlist : l.filterMap (changeOf (held.insert incoming.1 incoming.2)) =
          l.filterMap (changeOf held) :=
        List.filterMap_congr fun p hp => by rw [changeOf, hlater p hp]; rfl
      by_cases hflip : (held[incoming.1]?.bind Entry.declared).isSome = incoming.2.declared.isSome
      · simp [mergeStep, changeOf, ht, hflip, ih hl.2, hlist]
      · simp [mergeStep, changeOf, ht, hflip, ih hl.2, hlist]

/-- What a merge reports is each name's own change, in the order of the names. -/
theorem changes_mergeEntries (held named : Std.ExtTreeMap Bytes Entry) :
    (mergeEntries held named).2 = named.toList.filterMap (changeOf held) := by
  rw [mergeEntries, changes_foldl_mergeStep _ (Maps.nodup_keys_toList named), List.nil_append]

def merge (s named : Schema) : Schema × List Change where
  fst :=
    { entries := (mergeEntries s.entries named.entries).1
      named := fun {name entry table} hentry htable => by
        rw [getElem?_mergeEntries] at hentry
        rcases mergeEntry_cases named.entries[name]? s.entries[name]? with h | h
        · exact named.named (h ▸ hentry) htable
        · exact s.named (h ▸ hentry) htable }
  snd := (mergeEntries s.entries named.entries).2

/-- A merge changes a name once. -/
theorem nodup_changes (s named : Schema) : ((s.merge named).2.map Change.name).Nodup := by
  have hname : ∀ incoming change, changeOf s.entries incoming = some change →
      change.name = incoming.1 := by
    intro incoming change h
    unfold changeOf at h
    dsimp only at h
    split_ifs at h
    rw [← Option.some.inj h]
  have hkeys := Maps.nodup_keys_toList named.entries
  rw [merge, changes_mergeEntries]
  rw [List.nodup_iff_pairwise_ne, List.pairwise_map] at hkeys ⊢
  rw [List.pairwise_filterMap]
  refine hkeys.imp fun {p q} hne c hc d hd heq => hne ?_
  rw [← hname p c hc, ← hname q d hd, heq]

theorem mem_changes_iff {s named : Schema} {change : Change} :
    change ∈ (s.merge named).2 ↔ ∃ entry, named.entries[change.name]? = some entry ∧
      takes entry s.entries[change.name]? = true ∧ change.live = entry.declared.isSome ∧
      s.has change.name ≠ change.live := by
  rw [merge, changes_mergeEntries, List.mem_filterMap]
  constructor
  · rintro ⟨⟨name, entry⟩, hmem, hchange⟩
    simp only [changeOf] at hchange
    split_ifs at hchange with h
    obtain rfl := Option.some.inj hchange
    exact ⟨entry, Std.ExtTreeMap.mem_toList_iff_getElem?_eq_some.mp hmem, h.1, rfl, h.2⟩
  · rintro ⟨entry, hentry, htakes, hlive, hhas⟩
    refine ⟨(change.name, entry), Std.ExtTreeMap.mem_toList_iff_getElem?_eq_some.mpr hentry, ?_⟩
    obtain ⟨name, live⟩ := change
    dsimp only at hentry htakes hlive hhas
    subst hlive
    simp only [changeOf]
    rw [if_pos ⟨htakes, hhas⟩]

/-- A merge that makes a name go the other way makes another schema. -/
theorem merge_ne_of_mem_changes {s named : Schema} {change : Change}
    (h : change ∈ (s.merge named).2) : (s.merge named).1 ≠ s := by
  obtain ⟨entry, hentry, htakes, hlive, hhas⟩ := mem_changes_iff.mp h
  intro heq
  have hname : (s.merge named).1.entries[change.name]? = some entry := by
    rw [merge, getElem?_mergeEntries, hentry, mergeEntry, if_pos htakes]
  rw [heq] at hname
  rw [has, declared?, readEntry, hname, hlive] at hhas
  exact hhas rfl

theorem has_put (s : Schema) (name : Bytes) (entry : Entry) (h) (other : Bytes) :
    (s.put name entry h).has other = if name =
      other then entry.declared.isSome else s.has other := by
  rw [has, declared?, readEntry, getElem?_put]
  split_ifs
  · rfl
  · rfl

/-- Which names are live once a schema was merged in: the ones its changes say, and for the others
nothing has changed. -/
theorem has_merge (s named : Schema) (name : Bytes) :
    (s.merge named).1.has name =
      match (s.merge named).2.find? (·.name = name) with
      | none => s.has name
      | some change => change.live := by
  have hentry : (s.merge named).1.entries[name]? =
      mergeEntry named.entries[name]? s.entries[name]? := getElem?_mergeEntries _ _ _
  cases hfind : (s.merge named).2.find? (·.name = name) with
  | some change =>
    obtain rfl : change.name = name := by simpa using List.find?_some hfind
    obtain ⟨entry, hnamed, htakes, hlive, -⟩ := mem_changes_iff.mp (List.mem_of_find?_eq_some hfind)
    rw [hnamed, mergeEntry, if_pos htakes] at hentry
    dsimp only
    rw [has, declared?, readEntry, hentry, hlive]
    rfl
  | none =>
    dsimp only
    cases hnamed : named.entries[name]? with
    | none =>
      rw [hnamed, mergeEntry] at hentry
      rw [has, declared?, readEntry, hentry, has, declared?, readEntry]
    | some incoming =>
      rw [hnamed, mergeEntry] at hentry
      split_ifs at hentry with htakes
      · by_contra hne
        -- then the name went the other way, and the merge says so
        have hchange : (⟨name, incoming.declared.isSome⟩ : Change) ∈ (s.merge named).2 := by
          refine mem_changes_iff.mpr ⟨incoming, hnamed, htakes, rfl, fun heq => hne ?_⟩
          rw [heq, has, declared?, readEntry, hentry]
          rfl
        simpa using List.find?_eq_none.mp hfind _ hchange
      · rw [has, declared?, readEntry, hentry, has, declared?, readEntry]

/-! ### The document -/

def entryJson (held : Bytes × Entry) : Json :=
  .object ([(ascii "name", .string held.1), (ascii "live", .bool held.2.declared.isSome),
    (ascii "term", .int64 held.2.stamp.term),
      (ascii "count", .int64 (toInt64 held.2.stamp.count))] ++
    (held.2.declared.map fun table => (ascii "table", table.toJson)).toList)

def json (s : Schema) : Json :=
  .object [(ascii "schema", .array (s.entries.toList.map entryJson))]

/-- A number of an entry. What is missing, negative or no whole number is none. -/
def number (json : Json) (field : Bytes) : ℕ :=
  match json.member? field with
  | some (.uint64 n) => n
  | some (.int64 n) => if 0 < n then n.toNat else 0
  | _ => 0

/-- The document of the table an entry declares, where the entry is a live one. -/
def liveTable? (one : Json) : Option Json :=
  if (one.member? (ascii "live")).any Json.isTrue then
    (one.member? (ascii "table")).filter Json.isObject
  else none

/-- One turn of the loop of `to_schema`. -/
def readItem (read : Schema) (one : Json) : Schema :=
  match (one.member? (ascii "name")).bind Json.asString? with
  | none => read
  | some name =>
    let stamp := ⟨toInt64 (number one (ascii "term")), number one (ascii "count")⟩
    match liveTable? one with
    | some document => read.create (Table.toTable document) stamp
    | none => read.remove name stamp

/-- `to_schema`: what is no document of a schema is an empty one. -/
def toSchema (J : JsonCodec) (text : Bytes) : Schema :=
  match (J.parse text).bind fun document =>
      (document.member? (ascii "schema")).bind Json.asArray? with
  | none => ∅
  | some named => named.foldl readItem ∅

/-! ### What a document keeps -/

/-- Every name of the schema, the names in its tables included, is well-formed UTF-8. -/
def utf8 (s : Schema) : Bool :=
  s.entries.toList.all fun held => Utf8.valid held.1 && held.2.declared.all Table.utf8

/-- The stamps of the schema are versions of the machine's. -/
def Fits (s : Schema) : Prop :=
  ∀ {name : Bytes} {entry : Entry}, s.entries[name]? = some entry → entry.stamp.Fits

/-- The stamps of the schema are versions a document keeps: a term that is not negative, and a count
that is a signed number. -/
def Stamped (s : Schema) : Prop :=
  ∀ {name : Bytes} {entry : Entry}, s.entries[name]? = some entry → entry.stamp.Documented

theorem stamped_iff {s : Schema} :
    s.Stamped ↔ ∀ held ∈ s.entries.toList, held.2.stamp.Documented := by
  constructor
  · intro h held hmem
    exact h (Std.ExtTreeMap.mem_toList_iff_getElem?_eq_some.mp hmem)
  · intro h name entry hentry
    exact h (name, entry) (Std.ExtTreeMap.mem_toList_iff_getElem?_eq_some.mpr hentry)

instance : DecidablePred Stamped := fun _ => decidable_of_iff _ stamped_iff.symm

theorem Stamped.fits {s : Schema} (h : s.Stamped) : s.Fits := fun hentry => (h hentry).fits

/-- The schema with every stamp as a document gives it back. -/
def asWritten (s : Schema) : Schema where
  entries := s.entries.map fun _ entry => ⟨entry.stamp.asWritten, entry.declared⟩
  named {name entry table} hentry htable := by
    rw [Std.ExtTreeMap.getElem?_map] at hentry
    obtain ⟨held, hheld, rfl⟩ := Option.map_eq_some_iff.mp hentry
    exact s.named hheld htable

theorem asWritten_eq_iff {s : Schema} (h : s.Fits) : s.asWritten = s ↔ s.Stamped := by
  constructor
  · intro heq name entry hentry
    have hname := congrArg (fun t : Schema => t.entries[name]?) heq
    simp only [asWritten, Std.ExtTreeMap.getElem?_map, hentry, Option.map_some,
      Option.some.injEq] at hname
    exact (Version.asWritten_eq_iff (h hentry)).mp (congrArg Entry.stamp hname)
  · intro hs
    refine Schema.ext fun name => ?_
    rw [asWritten, Std.ExtTreeMap.getElem?_map]
    cases hentry : s.entries[name]? with
    | none => rfl
    | some entry =>
      rw [Option.map_some, (Version.asWritten_eq_iff (h hentry)).mpr (hs hentry)]

theorem utf8_iff {s : Schema} :
    s.utf8 = true ↔ ∀ (name : Bytes) (entry : Entry), s.entries[name]? = some entry →
      Utf8.valid name = true ∧ ∀ table, entry.declared = some table → table.utf8 = true := by
  simp only [utf8, List.all_eq_true, Prod.forall, Std.ExtTreeMap.mem_toList_iff_getElem?_eq_some,
    Bool.and_eq_true, Option.all_eq_true]

theorem utf8_entryJson (held : Bytes × Entry) :
    (entryJson held).utf8 = (Utf8.valid held.1 && held.2.declared.all Table.utf8) := by
  have hascii : Utf8.valid (ascii "name") = true ∧ Utf8.valid (ascii "live") = true ∧
      Utf8.valid (ascii "term") = true ∧ Utf8.valid (ascii "count") = true ∧
      Utf8.valid (ascii "table") = true :=
    ⟨Utf8.valid_of_forall_lt (by decide +kernel), Utf8.valid_of_forall_lt (by decide +kernel),
      Utf8.valid_of_forall_lt (by decide +kernel), Utf8.valid_of_forall_lt (by decide +kernel),
      Utf8.valid_of_forall_lt (by decide +kernel)⟩
  obtain ⟨name, stamp, declared⟩ := held
  cases declared <;>
    simp [entryJson, Json.utf8, Json.utf8Members, hascii, Table.utf8_toJson]

theorem utf8_json (s : Schema) : s.json.utf8 = s.utf8 := by
  have hschema : Utf8.valid (ascii "schema") = true := Utf8.valid_of_forall_lt (by decide +kernel)
  simp only [json, Json.utf8, Json.utf8Members, Json.utf8Items_eq_all, List.all_map, hschema,
    Bool.true_and, Bool.and_true, utf8]
  exact List.all_congr rfl utf8_entryJson

theorem regular_entryJson {held : Bytes × Entry} (h : held.2.stamp.Fits) :
    (entryJson held).regular := by
  have hnames : [ascii "name", ascii "live", ascii "term", ascii "count"].Nodup ∧
      [ascii "name", ascii "live", ascii "term", ascii "count", ascii "table"].Nodup := by decide
  have hterm := And.intro h.term_ge h.term_lt
  have hcount := toInt64_bounds held.2.stamp.count
  obtain ⟨name, stamp, declared⟩ := held
  cases declared with
  | none =>
    exact ⟨hnames.1, trivial, trivial, hterm, hcount, trivial⟩
  | some table =>
    exact ⟨hnames.2, trivial, trivial, hterm, hcount, Table.regular_toJson table, trivial⟩

theorem depth_entryJson (held : Bytes × Entry) : (entryJson held).depth ≤ 3 := by
  obtain ⟨name, stamp, declared⟩ := held
  cases declared with
  | none => simp [entryJson, Json.depth, Json.depthMembers]
  | some table =>
    have := Table.depth_toJson table
    simp [entryJson, Json.depth, Json.depthMembers]
    omega

theorem canonical_json {s : Schema} (h : s.Fits) : s.json.Canonical := by
  constructor
  · refine ⟨List.nodup_singleton _, ?_, trivial⟩
    rw [Json.regular, Json.regularItems_iff]
    intro v hv
    obtain ⟨⟨name, entry⟩, hheld, rfl⟩ := List.mem_map.mp hv
    exact regular_entryJson (h (Std.ExtTreeMap.mem_toList_iff_getElem?_eq_some.mp hheld))
  · have hitems : Json.depthItems (s.entries.toList.map entryJson) ≤ 3 := by
      rw [Json.depthItems_le_iff]
      intro v hv
      obtain ⟨held, -, rfl⟩ := List.mem_map.mp hv
      exact depth_entryJson held
    simp only [json, Json.depth, Json.depthMembers, Json.maxDepth]
    omega

/-! ### Reading a schema's document back -/

theorem member?_entryJson (name : Bytes) (entry : Entry) :
    (entryJson (name, entry)).member? (ascii "name") = some (.string name) ∧
    (entryJson (name, entry)).member? (ascii "live") = some (.bool entry.declared.isSome) ∧
    (entryJson (name, entry)).member? (ascii "term") = some (.int64 entry.stamp.term) ∧
    (entryJson (name, entry)).member? (ascii "count") =
      some (.int64 (toInt64 entry.stamp.count)) ∧
    (entryJson (name, entry)).member? (ascii "table") = entry.declared.map Table.toJson := by
  obtain ⟨stamp, declared⟩ := entry
  cases declared <;> exact ⟨rfl, rfl, rfl, rfl, rfl⟩

theorem number_int64 {one : Json} {field : Bytes} {n : ℤ}
    (h : one.member? field = some (.int64 n)) : (number one field : ℤ) = max n 0 := by
  simp only [number, h]
  split_ifs with hpos <;> omega

theorem stamp_entryJson {name : Bytes} {entry : Entry} (h : entry.stamp.Fits) :
    (⟨toInt64 (number (entryJson (name, entry)) (ascii "term")),
      number (entryJson (name, entry)) (ascii "count")⟩ : Version) = entry.stamp.asWritten := by
  obtain ⟨-, -, hterm, hcount, -⟩ := member?_entryJson name entry
  have hreadTerm := number_int64 hterm
  have hreadCount := number_int64 hcount
  have hbound := h.term_lt
  rw [toInt64_of_lt (by omega), hreadTerm, Version.asWritten, Version.mk.injEq]
  refine ⟨rfl, ?_⟩
  split_ifs with hsmall
  · rw [toInt64_of_lt hsmall] at hreadCount
    omega
  · have := toInt64_neg_of_le (by omega) h.count_lt
    omega

/-- One entry is read back under its name, at its stamp as the document gives it back. -/
theorem readItem_entryJson (read : Schema) {name : Bytes} {entry : Entry}
    (hstamp : entry.stamp.Fits)
    (hnamed : ∀ table, entry.declared = some table → table.name = name) :
    readItem read (entryJson (name, entry)) =
      read.put name ⟨entry.stamp.asWritten, entry.declared⟩ hnamed := by
  obtain ⟨hname, hlive, -, -, htable⟩ := member?_entryJson name entry
  simp only [readItem, hname, Option.bind_some, Json.asString?, stamp_entryJson hstamp, liveTable?,
    hlive, htable]
  obtain ⟨stamp, declared⟩ := entry
  cases declared with
  | none => rfl
  | some table =>
    obtain rfl := hnamed table rfl
    have hobject : table.toJson.isObject = true := rfl
    simp only [Option.any_some, Json.isTrue, Option.isSome_some, if_true, Option.map_some,
      Option.filter_some, hobject, Table.toTable_toJson]
    rfl

/-- What reading the entries of a document does to one name. -/
theorem getElem?_foldl_readItem {s : Schema} (h : s.Fits) (read : Schema) (name : Bytes) :
    ((s.entries.toList.map entryJson).foldl readItem read).entries[name]? =
      match s.entries[name]? with
      | none => read.entries[name]?
      | some entry => some ⟨entry.stamp.asWritten, entry.declared⟩ := by
  rw [List.foldl_map]
  refine (Maps.look_foldl (fun (read : Schema) (name : Bytes) => read.entries[name]?)
    (fun read held => readItem read (entryJson held))
    (fun _ entry _ => some ⟨entry.stamp.asWritten, entry.declared⟩) s.entries ?_ ?_ read
    name).trans ?_
  · intro read name entry hentry
    rw [readItem_entryJson read (h hentry) fun table => s.named hentry, getElem?_put, if_pos rfl]
  · intro read name entry name' hentry hne
    rw [readItem_entryJson read (h hentry) fun table => s.named hentry, getElem?_put,
      if_neg hne.symm]
  · cases s.entries[name]? <;> rfl

theorem foldl_readItem_json {s : Schema} (h : s.Fits) :
    (s.entries.toList.map entryJson).foldl readItem ∅ = s.asWritten := by
  refine Schema.ext fun name => ?_
  rw [getElem?_foldl_readItem h, asWritten, Std.ExtTreeMap.getElem?_map]
  cases s.entries[name]? <;> rfl

/-- **What a schema's document gives back**: the schema with its stamps as the document writes them,
and an empty schema where a name in it is not text, because then the parser refuses the document. -/
theorem toSchema_serialize (J : JsonCodec) {s : Schema} (h : s.Fits) :
    toSchema J (J.serialize s.json) = if s.utf8 then s.asWritten else ∅ := by
  rw [toSchema, J.parse_serialize (canonical_json h), utf8_json]
  split_ifs with hutf8
  · have hmember : (s.json.member? (ascii "schema")).bind Json.asArray? =
        some (s.entries.toList.map entryJson) := rfl
    simp only [Option.bind_some, hmember]
    exact foldl_readItem_json h
  · rfl

/-- **Which schemas are read back from the documents they write.** -/
theorem toSchema_serialize_eq_iff (J : JsonCodec) {s : Schema} (h : s.Fits) :
    toSchema J (J.serialize s.json) = s ↔ s.utf8 = true ∧ s.Stamped := by
  rw [toSchema_serialize J h]
  split_ifs with hutf8
  · rw [asWritten_eq_iff h]
    exact ⟨fun hs => ⟨hutf8, hs⟩, And.right⟩
  · refine iff_of_false (fun heq => hutf8 ?_) fun hboth => hutf8 hboth.1
    rw [← heq]
    rfl

/-! ### What a document read in holds -/

theorem utf8_put {s : Schema} {name : Bytes} {entry : Entry} {h} (hs : s.utf8 = true)
    (hname : Utf8.valid name = true)
    (htable : ∀ table, entry.declared = some table → table.utf8 = true) :
    (s.put name entry h).utf8 = true := by
  rw [utf8_iff] at hs ⊢
  intro name' entry' hentry
  rw [getElem?_put] at hentry
  split_ifs at hentry with heq
  · obtain rfl := heq
    obtain rfl := Option.some.inj hentry
    exact ⟨hname, htable⟩
  · exact hs name' entry' hentry

/-- A name put at an entry leaves the schema text exactly where it was text and the name is, as far
as what the entry before it declared was text and what it declares is. -/
theorem utf8_put_eq {s : Schema} {name : Bytes} {entry : Entry} {h}
    (hheld : ∀ held table, s.entries[name]? = some held → held.declared = some table →
      table.utf8 = true)
    (htable : ∀ table, entry.declared = some table → table.utf8 = true) :
    (s.put name entry h).utf8 = (s.utf8 && Utf8.valid name) := by
  rw [Bool.eq_iff_iff, Bool.and_eq_true]
  constructor
  · intro hput
    have hentries := utf8_iff.mp hput
    have hname : Utf8.valid name = true :=
      (hentries name entry (by rw [getElem?_put, if_pos rfl])).1
    refine ⟨utf8_iff.mpr fun other held hother => ?_, hname⟩
    by_cases heq : name = other
    · subst heq
      exact ⟨hname, fun table => hheld held table hother⟩
    · exact hentries other held (by rw [getElem?_put, if_neg heq]; exact hother)
  · exact fun ⟨hs, hname⟩ => utf8_put hs hname htable

theorem utf8_readItem {read : Schema} {one : Json} (hread : read.utf8 = true)
    (hone : one.utf8 = true) : (readItem read one).utf8 = true := by
  unfold readItem
  split
  · exact hread
  · rename_i name hname
    obtain ⟨v, hv, hs⟩ := Option.bind_eq_some_iff.mp hname
    have hutf8 := Json.utf8_of_asString? (Json.utf8_of_member? hone hv) hs
    split
    · rename_i document hdocument
      unfold liveTable? at hdocument
      split_ifs at hdocument
      have htable := (Option.filter_eq_some_iff.mp hdocument).1
      have hdoc := Table.utf8_toTable (Json.utf8_of_member? hone htable)
      refine utf8_put hread (Bool.and_eq_true_iff.mp hdoc).1 ?_
      intro table h
      obtain rfl := Option.some.inj h
      exact hdoc
    · exact utf8_put hread hutf8 fun table h => by cases h

/-- What a parser let through names only text, whatever it says. -/
theorem utf8_toSchema (J : JsonCodec) (text : Bytes) : (toSchema J text).utf8 = true := by
  unfold toSchema
  split
  · rfl
  · rename_i named hnamed
    obtain ⟨document, hparse, hbind⟩ := Option.bind_eq_some_iff.mp hnamed
    obtain ⟨v, hv, harray⟩ := Option.bind_eq_some_iff.mp hbind
    have hdocument := Json.utf8_of_member? (J.utf8_of_parse hparse) hv
    have hitems : ∀ one ∈ named, one.utf8 = true := fun one hone =>
      Json.utf8_of_mem_asArray? hdocument harray hone
    clear hnamed hbind harray
    have hrun : ∀ (l : List Json) (read : Schema), read.utf8 = true → (∀ one ∈ l, one.utf8 = true) →
        (l.foldl readItem read).utf8 = true := by
      intro l
      induction l with
      | nil => exact fun _ h _ => h
      | cons one l ih =>
        intro read hread hl
        exact ih _ (utf8_readItem hread (hl one List.mem_cons_self)) fun one' h =>
          hl one' (List.mem_cons_of_mem _ h)
    exact hrun named ∅ rfl hitems

theorem valid_of_has {s : Schema} {name : Bytes} (hs : s.utf8 = true) (h : s.has name = true) :
    Utf8.valid name = true := by
  obtain ⟨entry, table, hentry, -⟩ := has_iff.mp h
  exact (utf8_iff.mp hs name entry hentry).1

theorem utf8_create {s : Schema} {table : Table} {stamp : Version} (hs : s.utf8 = true)
    (htable : table.utf8 = true) : (s.create table stamp).utf8 = true := by
  refine utf8_put hs (Bool.and_eq_true_iff.mp htable).1 fun other h => ?_
  obtain rfl := Option.some.inj h
  exact htable

/-- A tombstone is text exactly where its name is. -/
theorem utf8_remove {s : Schema} {name : Bytes} {stamp : Version} (hs : s.utf8 = true) :
    (s.remove name stamp).utf8 = true ↔ Utf8.valid name = true := by
  constructor
  · intro h
    exact (utf8_iff.mp h name ⟨stamp, none⟩ (by rw [remove, getElem?_put, if_pos rfl])).1
  · exact fun h => utf8_put hs h fun table htable => by cases htable

theorem utf8_merge {s named : Schema} (hs : s.utf8 = true) (hnamed : named.utf8 = true) :
    (s.merge named).1.utf8 = true := by
  rw [utf8_iff] at hs hnamed ⊢
  intro name entry hentry
  rw [merge, getElem?_mergeEntries] at hentry
  rcases mergeEntry_cases named.entries[name]? s.entries[name]? with h | h
  · exact hnamed name entry (h ▸ hentry)
  · exact hs name entry (h ▸ hentry)

end Schema

end AsyncDatabase
