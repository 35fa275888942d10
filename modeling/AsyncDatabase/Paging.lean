import AsyncDatabase.Library.JsonText
import AsyncDatabase.Repository.Scanning
import AsyncDatabase.Router.Scans

/-!
# Following cursors

A client reads a range a page at a time: it asks for the scan, and then with each page's cursor
until a page has none (`follow`). `follow_reads_once` says that this ends and that the pages are the
range.
-/

namespace AsyncDatabase

open Bytes (ascii)
open Throwing

/-! ### Cursors -/

namespace Scan

variable (J : JsonCodec)

/-- What a cursor says. -/
def cursorDocument (key instanceName : Bytes) (partition : Partition) : Json :=
  .object [(ascii "k", .string key), (ascii "s", .string instanceName),
    (ascii "p", .int64 (partition : ℕ))]

theorem canonical_cursorDocument (key instanceName : Bytes) (partition : Partition) :
    (cursorDocument key instanceName partition).Canonical := by
  have hpartition : (partition : ℕ) < 256 := partition.isLt
  constructor
  · have hnames : [ascii "k", ascii "s", ascii "p"].Nodup := by decide
    refine ⟨hnames, trivial, trivial, ⟨?_, ?_⟩, trivial⟩
    · omega
    · omega
  · exact (by decide : 1 ≤ Json.maxDepth)

theorem utf8_cursorDocument {key instanceName : Bytes} (hkey : Utf8.valid key = true)
    (hinstance : Utf8.valid instanceName = true) (partition : Partition) :
    (cursorDocument key instanceName partition).utf8 = true := by
  have hnames : Utf8.valid (ascii "k") = true ∧ Utf8.valid (ascii "s") = true ∧
      Utf8.valid (ascii "p") = true := by decide
  simp [cursorDocument, Json.utf8, Json.utf8Members, hkey, hinstance, hnames]

/-- **A cursor that was issued is read as the key it was issued at.** -/
theorem readCursor_encodeCursor {key instanceName : Bytes} (hkey : Utf8.valid key = true)
    (hinstance : Utf8.valid instanceName = true) (partition : Partition) :
    readCursor J (encodeCursor J key instanceName partition) instanceName partition = some key := by
  have hdecoded : (Base64.decode (encodeCursor J key instanceName partition)).bind J.parse =
      some (cursorDocument key instanceName partition) := by
    rw [encodeCursor, Base64.decode_encode, Option.bind_some]
    change J.parse (J.serialize (cursorDocument key instanceName partition)) = _
    rw [J.parse_serialize (canonical_cursorDocument ..),
      if_pos (utf8_cursorDocument hkey hinstance _)]
  have hk : (cursorDocument key instanceName partition).member? (ascii "k") =
    some (.string key) := rfl
  have hs : (cursorDocument key instanceName partition).member? (ascii "s") =
      some (.string instanceName) := by
    have hne : (ascii "s" == ascii "k") = false := by decide
    simp [cursorDocument, Json.member?, List.lookup_cons, hne]
  have hp : (cursorDocument key instanceName partition).member? (ascii "p") =
      some (.int64 (partition : ℕ)) := by
    have hne : (ascii "p" == ascii "k") = false ∧ (ascii "p" == ascii "s") = false := by decide
    simp [cursorDocument, Json.member?, List.lookup_cons, hne]
  rw [readCursor, hdecoded]
  dsimp only
  rw [hk, hs, hp]
  simp

/-- A cursor is some text, where a parser takes no empty one for a document. -/
theorem encodeCursor_ne_nil (hempty : J.parse [] = none) {key instanceName : Bytes}
    (hkey : Utf8.valid key = true) (hinstance : Utf8.valid instanceName = true)
    (partition : Partition) : encodeCursor J key instanceName partition ≠ [] := by
  intro hnil
  have hread := readCursor_encodeCursor J hkey hinstance partition
  rw [hnil, readCursor] at hread
  have hnone : (Base64.decode []).bind J.parse = none := hempty
  rw [hnone] at hread
  cases hread

/-- The range of a scan that takes up behind a key. -/
def Range.behind (range : Range) (key : Bytes) : Range :=
  if range.reverse then { range with upper := key, hasUpper := true }
  else { range with lower := key ++ [0], hasLower := true }

@[simp] theorem Range.partition_behind (range : Range) (key : Bytes) :
    (range.behind key).partition = range.partition := by
  unfold behind; split_ifs <;> rfl

@[simp] theorem Range.values_behind (range : Range) (key : Bytes) :
    (range.behind key).values = range.values := by
  unfold behind; split_ifs <;> rfl

@[simp] theorem Range.limit_behind (range : Range) (key : Bytes) :
    (range.behind key).limit = range.limit := by
  unfold behind; split_ifs <;> rfl

/-! ### Asking again -/

/-- The query of a scan with a cursor put to it. -/
def resumed (query cursor : Bytes) : Bytes := Url.withParameter query (ascii "cursor") cursor

/-- The query has no cursor of its own. -/
def HasNoCursor (query : Bytes) : Prop :=
  (query.splitOn Url.ampersand).find? (Url.isNamed (ascii "cursor")) = none

theorem readParameter_resumed_of_ne {name : Bytes} (hne : name ≠ ascii "cursor")
    (query cursor : Bytes) :
    Url.readParameter (resumed query cursor) name = Url.readParameter query name :=
  Url.readParameter_withParameter_of_ne (by decide) (by decide) hne query cursor

theorem readParameter_resumed {query : Bytes} (hquery : HasNoCursor query) (cursor : Bytes) :
    Url.readParameter (resumed query cursor) (ascii "cursor") = cursor :=
  Url.readParameter_withParameter (by decide) (by decide) hquery cursor

theorem HasNoCursor.readParameter {query : Bytes} (hquery : HasNoCursor query) :
    Url.readParameter query (ascii "cursor") = [] := by
  rw [Url.readParameter_eq, hquery, Option.elim_none]

theorem readPartition_resumed (query cursor : Bytes) :
    readPartition (resumed query cursor) = readPartition query := by
  rw [readPartition, readPartition, readParameter_resumed_of_ne (by decide),
    readParameter_resumed_of_ne (by decide)]

theorem readBounds_resumed (query cursor : Bytes) (range : Range) :
    readBounds (resumed query cursor) range = readBounds query range := by
  rw [readBounds, readBounds, readParameter_resumed_of_ne (by decide),
    readParameter_resumed_of_ne (by decide), readParameter_resumed_of_ne (by decide)]

theorem readLimit_resumed (query cursor : Bytes) :
    readLimit (resumed query cursor) = readLimit query := by
  rw [readLimit, readLimit, readParameter_resumed_of_ne (by decide)]

/-- What a query without a cursor says, up to its cursor. -/
theorem parseRange_ok_iff {query instanceName : Bytes}
    (hquery : HasNoCursor query) {range : Range} :
    parseRange J query instanceName = .ok range ↔
    ∃ partition, readPartition query = some partition ∧
      ¬((readBounds query { partition }).hasLower = true ∧
        (readBounds query { partition }).hasUpper = true ∧
        ¬(readBounds query { partition }).lower < (readBounds query { partition }).upper) ∧
      range = { readBounds query { partition } with
        reverse := Url.readParameter query (ascii "reverse") = ascii "true"
        values := Url.readParameter query (ascii "values") ≠ ascii "false"
        limit := readLimit query } := by
  rw [parseRange]
  cases hpartition : readPartition query with
  | none => simp
  | some partition =>
    dsimp only
    simp only [Option.some.injEq, exists_eq_left']
    by_cases hbounds : (readBounds query { partition }).hasLower = true ∧
        (readBounds query { partition }).hasUpper = true ∧
        ¬(readBounds query { partition }).lower < (readBounds query { partition }).upper
    · rw [if_pos hbounds]
      exact ⟨fun hno => (by cases hno), fun hno => absurd hbounds hno.1⟩
    · rw [if_neg hbounds, if_pos hquery.readParameter, Except.ok.injEq]
      exact ⟨fun heq => ⟨hbounds, heq.symm⟩, fun heq => heq.2.symm⟩

/-- A bound a query gives is read into the partition it was read for. -/
theorem partition_readBounds (query : Bytes) (range : Range) :
    (readBounds query range).partition = range.partition := by
  unfold readBounds
  dsimp only
  split_ifs <;> first | rfl | (split <;> rfl)

theorem limit_pos_of_parseRange {query instanceName : Bytes} (hquery : HasNoCursor query)
    {range : Range} (h : parseRange J query instanceName = .ok range) : 0 < range.limit := by
  obtain ⟨partition, -, -, rfl⟩ := (parseRange_ok_iff J hquery).mp h
  change 0 < readLimit query
  unfold readLimit
  split
  · decide
  · exact lt_min (lt_max_of_lt_right Nat.one_pos) (by decide)

/-- **A scan that is asked for again with a cursor takes up behind the cursor's key.** -/
theorem parseRange_resumed (hempty : J.parse [] = none) {query instanceName key : Bytes}
    (hquery : HasNoCursor query) {range : Range} (h : parseRange J query instanceName = .ok range)
    (hkey : Utf8.valid key = true) (hinstance : Utf8.valid instanceName = true) :
    parseRange J (resumed query (encodeCursor J key instanceName range.partition)) instanceName =
      .ok (range.behind key) := by
  obtain ⟨partition, hpartition, hbounds, rfl⟩ := (parseRange_ok_iff J hquery).mp h
  have hsame : (readBounds query { partition }).partition = partition := partition_readBounds _ _
  dsimp only
  rw [hsame, parseRange, readPartition_resumed, hpartition]
  dsimp only
  rw [readBounds_resumed, if_neg hbounds, readParameter_resumed hquery,
    if_neg (encodeCursor_ne_nil J hempty hkey hinstance partition),
    readCursor_encodeCursor J hkey hinstance, readLimit_resumed,
    readParameter_resumed_of_ne (by decide), readParameter_resumed_of_ne (by decide)]
  dsimp only
  unfold Range.behind
  by_cases hreverse : Url.readParameter query (ascii "reverse") = ascii "true"
  · rw [if_pos (decide_eq_true hreverse), if_pos (decide_eq_true hreverse), hsame]
  · rw [if_neg (by simpa using hreverse), if_neg (by simpa using hreverse), hsame]

end Scan

/-! ### What is behind a key -/

section

variable {family : Family} {range : Scan.Range}

theorem sorted_scanned (haccepted : Accepted family) (range : Scan.Range) :
    ((Store.scanned family range).map fun held => Store.composedKey held.1).Pairwise
      fun key other => if range.reverse then other < key else key < other := by
  have hsorted : (((recordsIn family range.partition).filter fun held =>
      range.Admits (Store.composedKey held.1)).map fun held => Store.composedKey held.1).Pairwise
      (· < ·) :=
    (haccepted.pairwise_recordsIn range.partition).sublist (List.filter_sublist.map _)
  rw [Scan.scanned_eq haccepted]
  cases range.reverse with
  | true =>
    rw [if_pos rfl, List.map_reverse, List.pairwise_reverse]
    simpa using hsorted
  | false => simpa using hsorted

/-- What a sorted list has behind one of its members. -/
theorem filter_behind {r : Bytes → Bytes → Prop} [DecidableRel r] (hirrefl : ∀ key, ¬r key key)
    (hasymm : ∀ key other, r key other → ¬r other key) {read rest : List (Bytes × Bytes)}
    {last : Bytes × Bytes}
    (hsorted : ((read ++ last :: rest).map fun held => Store.composedKey held.1).Pairwise r) :
    ((read ++ last :: rest).filter fun held =>
      r (Store.composedKey last.1) (Store.composedKey held.1)) = rest := by
  rw [List.map_append, List.pairwise_append, List.map_cons, List.pairwise_cons] at hsorted
  obtain ⟨-, ⟨hrest, -⟩, hread⟩ := hsorted
  have hnone : (read.filter fun held =>
      r (Store.composedKey last.1) (Store.composedKey held.1)) = [] := by
    rw [List.filter_eq_nil_iff]
    intro held hmem
    simpa using hasymm _ _ (hread _ (List.mem_map_of_mem hmem) _ List.mem_cons_self)
  have hall : (rest.filter fun held =>
      r (Store.composedKey last.1) (Store.composedKey held.1)) = rest := by
    rw [List.filter_eq_self]
    exact fun held hmem => decide_eq_true (hrest _ (List.mem_map_of_mem hmem))
  rw [List.filter_append, hnone, List.filter_cons_of_neg (by simpa using hirrefl _), hall,
    List.nil_append]

/-- What a scan that resumes behind a key admits is what comes after the key in its order. -/
theorem admits_behind {key : Bytes} (hadmits : range.Admits key) (other : Bytes) :
    (range.behind key).Admits other ↔
      (if range.reverse = true then other < key else key < other) ∧ range.Admits other := by
  cases hreverse : range.reverse with
  | true =>
    have hbehind : range.behind key = { range with upper := key, hasUpper := true } :=
      if_pos hreverse
    rw [hbehind, if_pos rfl]
    constructor
    · rintro ⟨hlower, hupper⟩
      have hlt := hupper rfl
      exact ⟨hlt, hlower, fun hhas => List.lt_trans hlt (hadmits.2 hhas)⟩
    · rintro ⟨hlt, hlower, -⟩
      exact ⟨hlower, fun _ => hlt⟩
  | false =>
    have hbehind : range.behind key = { range with lower := key ++ [0], hasLower := true } :=
      if_neg (by rw [hreverse]; simp)
    rw [hbehind, if_neg Bool.false_ne_true]
    constructor
    · rintro ⟨hlower, hupper⟩
      -- no key is between a key and the same key with a zero byte behind it
      have hno := hlower rfl
      rw [Bytes.lt_append_zero_iff, not_or] at hno
      have hlt : key < other :=
        (Std.lt_trichotomy _ _).resolve_right fun hor => hor.elim
          (fun heq => hno.2 heq.symm) hno.1
      exact ⟨hlt, fun hhas hlow => hadmits.1 hhas (List.lt_trans hlt hlow), hupper⟩
    · rintro ⟨hlt, -, hupper⟩
      refine ⟨fun _ hlow => ?_, hupper⟩
      rcases Bytes.lt_append_zero_iff.mp hlow with hback | heq
      · exact List.lt_asymm hlt hback
      · rw [heq] at hlt
        exact List.lt_irrefl _ hlt

/-- The records behind one that a scan read, in the order it reads them. -/
theorem scanned_behind (haccepted : Accepted family) {read rest : List (Bytes × Bytes)}
    {last : Bytes × Bytes} (hlist : Store.scanned family range = read ++ last :: rest) :
    Store.scanned family (range.behind (Store.composedKey last.1)) = rest := by
  have hsorted := sorted_scanned haccepted range
  rw [hlist] at hsorted
  have hadmits : range.Admits (Store.composedKey last.1) := by
    have hmem : last ∈ Store.scanned family range := by rw [hlist]; simp
    rw [Scan.scanned_eq haccepted] at hmem
    split_ifs at hmem
    · exact of_decide_eq_true (List.mem_filter.mp (List.mem_reverse.mp hmem)).2
    · exact of_decide_eq_true (List.mem_filter.mp hmem).2
  have hsame : (range.behind (Store.composedKey last.1)).reverse = range.reverse := by
    unfold Scan.Range.behind
    split_ifs <;> rfl
  rw [Scan.scanned_eq haccepted] at hlist
  rw [Scan.scanned_eq haccepted, hsame, Scan.Range.partition_behind]
  simp only [admits_behind hadmits, Bool.decide_and]
  cases hreverse : range.reverse with
  | true =>
    rw [if_pos hreverse] at hlist
    simp only [hreverse, if_true] at hsorted ⊢
    rw [← List.filter_filter, ← List.filter_reverse, hlist]
    exact filter_behind (r := fun key other => other < key) List.lt_irrefl
      (fun _ _ hlt => List.lt_asymm hlt) hsorted
  | false =>
    rw [if_neg (by rw [hreverse]; simp)] at hlist
    simp only [hreverse, Bool.false_eq_true, if_false] at hsorted ⊢
    rw [← List.filter_filter, hlist]
    exact filter_behind List.lt_irrefl (fun _ _ hlt => List.lt_asymm hlt) hsorted

end

/-! ### A client that follows cursors -/

/-- The cursor of a page. -/
def nextOf (answer : Response) : Option Bytes :=
  (answer.json.member? (ascii "next")).bind Json.asString?

/-- A client asks for a scan and then again with each page's cursor in place of the last, until a
page has none. With no turns left it has not ended. -/
def follow (ask : Bytes → Response) (query : Bytes) : ℕ → Bytes → Option (List Response)
  | 0, _ => none
  | turns + 1, asked =>
    match nextOf (ask asked) with
    | none => some [ask asked]
    | some cursor => (follow ask query turns (Scan.resumed query cursor)).map (ask asked :: ·)

/-- What a node answers the scan of a query with. -/
def askNode (J : JsonCodec) (w : Seams) (request : Request) (name : Bytes)
    (n : Node) (query : Bytes) : Response :=
  Node.respond (Node.answerPage J w { request with query } name) n

/-- An answer is the page of these records, inside its limits. -/
structure IsPage (range : Scan.Range) (page : List (Bytes × Bytes)) (answer : Response) : Prop where
  status : answer.status = 200
  records : answer.json.member? (ascii "records") =
    some (.array (page.map fun held => Node.recordJson (Scan.read range held) range.values))
  limit : page.length ≤ range.limit
  bytes : page.length ≤ 1 ∨ Scan.bytesOf range page ≤ Scan.maxPageBytes

section

variable {J : JsonCodec} {w : Seams} {request : Request} {name : Bytes} {n : Node} {family : Family}

theorem askNode_eq (hdb : w.db = {}) (hfamily : n.store.disk.families[name]? = some family)
    {query : Bytes} {range : Scan.Range}
    (hrange : Scan.parseRange J query w.instanceName = .ok range) :
    askNode J w request name n query =
      Node.pageResponse J w (Scan.fill range (Store.scanned family range) {} 0) range := by
  have hscan : Store.scanRecords {} name range n.store =
      .ok (Scan.fill range (Store.scanned family range) {} 0) n.store := by
    rw [Store.scanRecords, run_bind, Store.tableHandle, run_bind_get, hfamily]
    rfl
  have hpage : Node.answerPage J w { request with query } name n =
      .ok (Node.pageResponse J w (Scan.fill range (Store.scanned family range) {} 0) range) n := by
    rw [Node.answerPage]
    dsimp only
    rw [hrange]
    dsimp only
    rw [run_bind, Node.onStore, hdb, hscan]
    rfl
  rw [askNode, Node.respond, hpage]

/-- **What one page is**: the front of what its scan goes over, with a cursor to the last of it
where something is left. -/
theorem askNode_page (request : Request) (hdb : w.db = {})
    (hfamily : n.store.disk.families[name]? = some family)
    {query : Bytes} {range : Scan.Range}
    (hrange : Scan.parseRange J query w.instanceName = .ok range) (hlimit : 0 < range.limit) :
    ∃ page, IsPage range page (askNode J w request name n query) ∧
      (Store.scanned family range ≠ [] → page ≠ []) ∧
      (Store.scanned family range = page ∧ nextOf (askNode J w request name n query) = none ∨
        ∃ read last rest, page = read ++ [last] ∧ rest ≠ [] ∧
          Store.scanned family range = read ++ last :: rest ∧
          nextOf (askNode J w request name n query) =
            some (Scan.encodeCursor J (Store.composedKey last.1) w.instanceName
              range.partition)) := by
  obtain ⟨taken, hle, hfill, hfits, hsome⟩ :=
    Scan.fill_start range hlimit (Store.scanned family range)
  generalize hheld : Store.scanned family range = held at *
  have hlength : (held.take taken).length = taken := by
    rw [List.length_take]
    omega
  have hnext : (ascii "next" == ascii "records") = false := by decide
  have hrecords : ∀ next, (Json.object ((ascii "records", Json.array
      (((held.take taken).map (Scan.read range)).map (Node.recordJson · range.values))) ::
        next)).member? (ascii "records") = some (.array ((held.take taken).map fun held =>
          Node.recordJson (Scan.read range held) range.values)) := by
    intro next
    rw [List.map_map]
    rfl
  refine ⟨held.take taken, ⟨?_, ?_, ?_, ?_⟩, fun hne hnil => ?_, ?_⟩
  · rw [askNode_eq hdb hfamily hrange]
    rfl
  · rw [askNode_eq hdb hfamily hrange, hheld, hfill]
    exact hrecords _
  · rw [hlength]
    exact hfits.1
  · rw [hlength]
    exact hfits.2
  · have hpos := hsome hne
    rw [hnil, List.length_nil] at hlength
    omega
  · rw [askNode_eq hdb hfamily hrange, hheld, hfill, nextOf, Node.pageResponse]
    by_cases hend : taken = held.length
    · refine Or.inl ⟨by rw [hend, List.take_length], ?_⟩
      have hmore : decide (taken < held.length) = false := decide_eq_false (by omega)
      dsimp only
      rw [hmore]
      cases ((held.take taken).map (Scan.read range)).getLast? <;>
        simp [jsonResponse, Json.member?, List.lookup_cons, hnext]
    · have hpos : 0 < taken := hsome fun hnil => hend (by rw [hnil] at hle ⊢; simpa using hle)
      obtain ⟨read, last, htake, -, hsplit⟩ := Scan.exists_take_eq hpos hle
      have hrest : held.drop taken ≠ [] := by
        rw [Ne, List.drop_eq_nil_iff]
        omega
      refine Or.inr ⟨read, last, held.drop taken, htake, hrest, hsplit, ?_⟩
      have hmore : decide (taken < held.length) = true := decide_eq_true (by omega)
      have hlast : ((held.take taken).map (Scan.read range)).getLast? =
        some (Scan.read range last) := by
        rw [htake]
        simp
      dsimp only
      rw [hmore, hlast]
      simp [jsonResponse, Json.member?, List.lookup_cons, hnext, Json.asString?, Scan.read]

/-- **The pages from any page on** are what is left of the range. -/
theorem follow_from (request : Request) (hempty : J.parse [] = none)
    (hinstance : Utf8.valid w.instanceName = true)
    (hdb : w.db = {}) (hfamily : n.store.disk.families[name]? = some family)
    (haccepted : Accepted family) {query : Bytes} (hquery : Scan.HasNoCursor query)
    {range : Scan.Range} (hrange : Scan.parseRange J query w.instanceName = .ok range) (left : ℕ)
    {asked : Bytes} {range' : Scan.Range}
    (hasked : Scan.parseRange J asked w.instanceName = .ok range')
    (hpartition : range'.partition = range.partition) (hvalues : range'.values = range.values)
    (hlimit : range'.limit = range.limit) (before : List (Bytes × Bytes))
    (hsplit : Store.scanned family range = before ++ Store.scanned family range')
    (hleft : (Store.scanned family range').length ≤ left) :
    ∃ pages answers, pages.flatten = Store.scanned family range' ∧
      List.Forall₂ (IsPage range) pages answers ∧
      (Store.scanned family range' ≠ [] → ∀ page ∈ pages, page ≠ []) ∧
      ∀ turns, left < turns →
        follow (askNode J w request name n) query turns asked = some answers := by
  induction left using Nat.strong_induction_on generalizing asked range' before with
  | _ left ih =>
    have hpos : 0 < range'.limit := by
      rw [hlimit]
      exact Scan.limit_pos_of_parseRange J hquery hrange
    obtain ⟨page, hpage, hne, hnext⟩ := askNode_page request hdb hfamily hasked hpos
    have hsize : Scan.sizeOf range' = Scan.sizeOf range := by
      funext held
      rw [Scan.sizeOf, Scan.sizeOf, hvalues]
    have hread : Scan.read range' = Scan.read range := by
      funext held
      rw [Scan.read, Scan.read, hvalues]
    have hpage' : IsPage range page (askNode J w request name n asked) := by
      refine ⟨hpage.status, ?_, hlimit ▸ hpage.limit, ?_⟩
      · rw [hpage.records, hread, hvalues]
      · rw [Scan.bytesOf, ← hsize]
        exact hpage.bytes
    rcases hnext with ⟨hall, hlast⟩ | ⟨read, last, rest, hread, hmore, hscanned, hcursor⟩
    · refine ⟨[page], [askNode J w request name n asked], ?_, ?_, ?_, fun turns hturns => ?_⟩
      · rw [hall, List.flatten_singleton]
      · exact List.Forall₂.cons hpage' List.Forall₂.nil
      · intro hsome other hother
        rw [List.mem_singleton.mp hother]
        exact hne hsome
      · obtain ⟨turns, rfl⟩ : ∃ more, turns = more + 1 := ⟨turns - 1, by omega⟩
        rw [follow, hlast]
    · have hlength : (Store.scanned family range').length = read.length + 1 + rest.length := by
        rw [hscanned, List.length_append, List.length_cons]
        omega
      have hwhole : Store.scanned family range = (before ++ read) ++ last :: rest := by
        rw [hsplit, hscanned, List.append_assoc]
      have hrest := scanned_behind haccepted hwhole
      have hkey : Utf8.valid (Store.composedKey last.1) = true :=
        haccepted.utf8_of_mem_scanned range (by rw [hwhole]; simp)
      have hresumed := Scan.parseRange_resumed J hempty hquery hrange hkey hinstance
      obtain ⟨pages, answers, hflatten, hpages, hnonempty, hfollow⟩ :=
        ih (left - 1) (by omega) hresumed (by simp) (by simp) (by simp) (before ++ read ++ [last])
        (by rw [hrest, hwhole]; simp) (by rw [hrest]; omega)
      refine ⟨page :: pages, askNode J w request name n asked :: answers, ?_, ?_, ?_,
        fun turns hturns => ?_⟩
      · rw [List.flatten_cons, hflatten, hrest, hscanned, hread]
        simp
      · exact List.Forall₂.cons hpage' hpages
      · intro hsome other hother
        rcases List.mem_cons.mp hother with rfl | hlater
        · exact hne hsome
        · exact hnonempty (by rwa [hrest]) other hlater
      · obtain ⟨turns, rfl⟩ : ∃ more, turns = more + 1 := ⟨turns - 1, by omega⟩
        rw [follow, hcursor]
        dsimp only
        rw [hpartition, hfollow turns (by omega)]
        rfl

/-- The records of the range are in the pages, in order and each once. -/
structure ReadsOnce (family : Family) (range : Scan.Range) (pages : List (List (Bytes × Bytes)))
    (answers : List Response) : Prop where
  /-- The records are those of the partition with keys in the range. -/
  exact : ∀ key value, (key, value) ∈ pages.flatten ↔ family[key]? = some value ∧
    Store.partitionHeld key = range.partition ∧ range.Admits (Store.composedKey key)
  /-- They are in the order of their keys, or against it, so each is there once. -/
  ordered : (pages.flatten.map fun held => Store.composedKey held.1).Pairwise fun key other =>
    if range.reverse then other < key else key < other
  answered : List.Forall₂ (IsPage range) pages answers
  /-- A page is empty only where the range is. -/
  nonempty : pages.flatten ≠ [] → ∀ page ∈ pages, page ≠ []

/-- **Following cursors reads the range exactly once.** -/
theorem follow_reads_once (hempty : J.parse [] = none) {number : ℕ}
    (hinstance : w.instanceName = Bytes.decimal number) (hdb : w.db = {})
    (hfamily : n.store.disk.families[name]? = some family) (haccepted : Accepted family)
    {query : Bytes} (hquery : Scan.HasNoCursor query) {range : Scan.Range}
    (hrange : Scan.parseRange J query w.instanceName = .ok range) :
    ∃ pages answers, ReadsOnce family range pages answers ∧
      ∀ turns, (recordsIn family range.partition).length < turns →
        follow (askNode J w request name n) query turns query = some answers := by
  have htext : Utf8.valid w.instanceName = true := by
    rw [hinstance]
    refine Utf8.valid_of_forall_lt fun b hb => ?_
    have hdigit := Bytes.isDigit_of_mem_decimal hb
    simp only [Bytes.isDigit, Bool.and_eq_true, decide_eq_true_eq] at hdigit
    exact UInt8.lt_of_le_of_lt hdigit.2 (by decide)
  have hfew : (Store.scanned family range).length ≤ (recordsIn family range.partition).length := by
    rw [Scan.scanned_eq haccepted]
    split_ifs
    · rw [List.length_reverse]
      exact List.length_filter_le _ _
    · exact List.length_filter_le _ _
  obtain ⟨pages, answers, hflatten, hpages, hnonempty, hfollow⟩ :=
    follow_from request hempty htext hdb hfamily haccepted hquery hrange
      (recordsIn family range.partition).length hrange rfl rfl rfl [] rfl hfew
  refine ⟨pages, answers, ⟨fun key value => ?_, ?_, hpages, ?_⟩, hfollow⟩
  · rw [hflatten, Scan.scanned_eq haccepted, ← and_assoc, ← mem_recordsIn]
    split_ifs <;> simp
  · rw [hflatten]
    exact sorted_scanned haccepted range
  · rwa [hflatten]

end

/-- A table of three records of one partition. -/
def threeRecords : Family :=
  (((∅ : Family).insert (Store.storeKey (ascii "a"))
    (Record.composeValue ⟨1, 1⟩ (ascii "x"))).insert
    (Store.storeKey (Record.composeKey (ascii "a") (ascii "b")))
      (Record.composeValue ⟨1, 2⟩ (ascii "y"))).insert
    (Store.storeKey (Record.composeKey (ascii "a") [0])) (Record.composeValue ⟨1, 3⟩ (ascii "z"))

theorem accepted_threeRecords : Accepted threeRecords :=
  ((accepted_empty.insert (by decide) _).insert (by decide) _).insert (by decide) _

/-- A node that has them. -/
def nodeOfThree : Node where
  store := { disk := { Disk.fresh with
    families := (∅ : Std.ExtTreeMap Bytes Family).insert (ascii "t") threeRecords } }

/-- The range read against the order of its keys, two records a page. -/
theorem follow_reads_once_threeRecords :
    ∃ pages answers, ReadsOnce threeRecords
        { partition := partitionOf (ascii "a"), lower := ascii "a", hasLower := true
          upper := ascii "b", hasUpper := true, reverse := true, limit := 2 } pages answers ∧
      ∀ turns, (recordsIn threeRecords (partitionOf (ascii "a"))).length < turns →
        follow (askNode JsonText.codec { instanceName := Bytes.decimal 7 }
            { method := .get, path := [] } (ascii "t") nodeOfThree)
          (ascii "key=a&prefix=a&reverse=true&limit=2") turns
          (ascii "key=a&prefix=a&reverse=true&limit=2") = some answers :=
  follow_reads_once (by decide) (show _ = Bytes.decimal 7 from rfl) rfl
    Std.ExtTreeMap.getElem?_insert_self accepted_threeRecords (by unfold Scan.HasNoCursor; decide)
    (by rfl)

end AsyncDatabase
