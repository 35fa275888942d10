import AsyncDatabase.Library.Maps
import AsyncDatabase.Repository.Effect
import AsyncDatabase.Scan

/-!
# What a scan reads

The records a table has in a partition are a list in the order of their keys (`recordsIn`). A scan
goes over those whose keys its range admits (`scanned_eq`), and its page is the front of them
(`fill_eq`).
-/

namespace AsyncDatabase

/-- The keys of a table are ones that a PUT stores. -/
def Accepted (family : Family) : Prop :=
  ∀ key ∈ family, ∃ named record, Record.parseKey named = .ok record ∧ key = Store.storeKey named

/-- The records of a partition, in the order of their keys. -/
def recordsIn (family : Family) (partition : Partition) : List (Bytes × Bytes) :=
  family.toList.filter fun held => Store.partitionHeld held.1 = partition

variable {family : Family} {partition : Partition}

theorem accepted_empty : Accepted ∅ := fun _ hmem => by simp at hmem

/-- A table that is written to has keys that a PUT stores. -/
theorem Accepted.insert (h : Accepted family) {named : Bytes}
    (hnamed : Utf8.valid named = true ∧ named.length ≤ Record.maxKeySize) (value : Bytes) :
    Accepted (family.insert (Store.storeKey named) value) := by
  intro key hmem
  rw [Std.ExtTreeMap.mem_insert, Std.LawfulEqCmp.compare_eq_iff_eq] at hmem
  rcases hmem with rfl | hmem
  · obtain ⟨record, hparse⟩ := Record.exists_parseKey_iff.mpr hnamed
    exact ⟨named, record, hparse, rfl⟩
  · exact h key hmem

theorem mem_recordsIn {key value : Bytes} :
    (key, value) ∈ recordsIn family partition ↔
      family[key]? = some value ∧ Store.partitionHeld key = partition := by
  rw [recordsIn, List.mem_filter, Std.ExtTreeMap.mem_toList_iff_getElem?_eq_some]
  simp

theorem Accepted.of_mem_recordsIn (h : Accepted family) {held : Bytes × Bytes}
    (hmem : held ∈ recordsIn family partition) :
    ∃ named record, Record.parseKey named = .ok record ∧ held.1 = Store.storeKey named ∧
      partitionOf named = partition := by
  obtain ⟨hvalue, hheld⟩ := mem_recordsIn.mp (show (held.1, held.2) ∈ _ from hmem)
  have hkey : held.1 ∈ family := by
    rw [← Std.ExtTreeMap.isSome_getElem?_iff_mem, hvalue]
    rfl
  obtain ⟨named, record, hparse, heq⟩ := h held.1 hkey
  refine ⟨named, record, hparse, heq, Fin.val_injective ?_⟩
  rw [← hheld, heq, Store.partitionHeld_storeKey]

/-- **The records of a partition are in the order of the keys a client reads.** -/
theorem Accepted.pairwise_recordsIn (h : Accepted family) (partition : Partition) :
    ((recordsIn family partition).map fun held => Store.composedKey held.1).Pairwise (· < ·) := by
  rw [List.pairwise_map]
  have hsorted : family.toList.Pairwise fun a b => a.1 < b.1 :=
    Std.ExtTreeMap.ordered_keys_toList.imp fun hlt => Bytes.compare_eq_lt_iff.mp hlt
  refine (hsorted.filter _).imp_of_mem fun {a b} ha hb hlt => ?_
  obtain ⟨named, -, -, hkey, hpartition⟩ := h.of_mem_recordsIn ha
  obtain ⟨named', -, -, hkey', hpartition'⟩ := h.of_mem_recordsIn hb
  rw [hkey, hkey', Store.storeKey_eq, Store.storeKey_eq, hpartition, hpartition',
    List.cons_lt_cons_iff, List.cons_lt_cons_iff] at hlt
  rw [hkey, hkey', Store.composedKey_storeKey, Store.composedKey_storeKey]
  simpa using hlt

/-! ### The bounds of a scan -/

namespace Scan

/-- A key is inside the bounds of a range. -/
def Range.Admits (range : Range) (key : Bytes) : Prop :=
  (range.hasLower = true → ¬key < range.lower) ∧ (range.hasUpper = true → key < range.upper)

instance (range : Range) (key : Bytes) : Decidable (range.Admits key) :=
  inferInstanceAs (Decidable (_ ∧ _))

theorem ofNat_lt_ofNat_iff {m n : ℕ} (hm : m < 256) (hn : n < 256) :
    UInt8.ofNat m < UInt8.ofNat n ↔ m < n := by
  rw [UInt8.lt_iff_toNat_lt, UInt8.toNat_ofNat', UInt8.toNat_ofNat']
  omega

theorem ofNat_eq_ofNat_iff {m n : ℕ} (hm : m < 256) (hn : n < 256) :
    UInt8.ofNat m = UInt8.ofNat n ↔ m = n := by
  rw [← UInt8.toNat_inj, UInt8.toNat_ofNat', UInt8.toNat_ofNat']
  omega

/-- A key that is held against a bound inside a partition. -/
theorem storeKey_lt_iff (key bound : Bytes) (partition : Partition) :
    Store.storeKey key < Store.partitionPrefix partition ++ bound ↔
      partitionOf key < partition ∨ partitionOf key = partition ∧ key < bound := by
  have hkey : (partitionOf key : ℕ) < 256 := (partitionOf key).isLt
  have hpartition : (partition : ℕ) < 256 := partition.isLt
  rw [Store.storeKey_eq, Store.partitionPrefix_eq hpartition]
  change 0 :: UInt8.ofNat (partitionOf key) :: key < 0 :: UInt8.ofNat partition :: bound ↔ _
  rw [List.cons_lt_cons_iff, List.cons_lt_cons_iff, ofNat_lt_ofNat_iff hkey hpartition,
    ofNat_eq_ofNat_iff hkey hpartition, Fin.lt_def, Fin.ext_iff]
  simp

/-- A key that is held against the end of a partition. -/
theorem storeKey_lt_end_iff (key : Bytes) (partition : Partition) :
    Store.storeKey key < Store.partitionPrefix (partition + 1) ↔ partitionOf key ≤ partition := by
  have hkey : (partitionOf key : ℕ) < 256 := (partitionOf key).isLt
  have hpartition : (partition : ℕ) < 256 := partition.isLt
  rw [Store.storeKey_eq, Fin.le_def]
  by_cases hlast : (partition : ℕ) = 255
  · -- past the last partition its number takes the other byte
    have hend : Store.partitionPrefix (partition + 1) = [1, 0] := by
      rw [hlast]
      rfl
    rw [hend, List.cons_lt_cons_iff]
    simp only [show (0 : UInt8) < 1 by decide, true_or, true_iff]
    omega
  · rw [Store.partitionPrefix_eq (by omega), List.cons_lt_cons_iff, List.cons_lt_cons_iff,
      ofNat_lt_ofNat_iff hkey (by omega)]
    simp only [UInt8.lt_irrefl, List.not_lt_nil, and_false, or_false, true_and, false_or]
    omega

/-- The bounds of a scan let through the keys of its partition that its range admits. -/
theorem between_iff (range : Range) (key : Bytes) :
    (¬Store.storeKey key < (if range.hasLower = true then
          Store.partitionPrefix range.partition ++ range.lower
        else Store.partitionPrefix range.partition) ∧
      Store.storeKey key < (if range.hasUpper = true then
          Store.partitionPrefix range.partition ++ range.upper
        else Store.partitionPrefix (range.partition + 1))) ↔
      partitionOf key = range.partition ∧ range.Admits key := by
  have hlower : ¬Store.storeKey key < (if range.hasLower = true then
        Store.partitionPrefix range.partition ++ range.lower
      else Store.partitionPrefix range.partition) ↔
      range.partition < partitionOf key ∨ partitionOf key = range.partition ∧
        (range.hasLower = true → ¬key < range.lower) := by
    split_ifs with hhas
    · rw [storeKey_lt_iff]
      simp only [not_or, not_lt, not_and, hhas, forall_const]
      constructor
      · rintro ⟨hle, hkey⟩
        rcases hle.lt_or_eq with hlt | heq
        · exact Or.inl hlt
        · exact Or.inr ⟨heq.symm, hkey heq.symm⟩
      · rintro (hlt | ⟨heq, hkey⟩)
        · exact ⟨hlt.le, fun heq => absurd heq hlt.ne'⟩
        · exact ⟨heq.ge, fun _ => hkey⟩
    · have hnil := storeKey_lt_iff key [] range.partition
      rw [List.append_nil] at hnil
      rw [hnil]
      simp [hhas, le_iff_lt_or_eq, eq_comm]
  have hupper : Store.storeKey key < (if range.hasUpper = true then
        Store.partitionPrefix range.partition ++ range.upper
      else Store.partitionPrefix (range.partition + 1)) ↔
      partitionOf key < range.partition ∨ partitionOf key = range.partition ∧
        (range.hasUpper = true → key < range.upper) := by
    split_ifs with hhas
    · rw [storeKey_lt_iff]
      simp [hhas]
    · rw [storeKey_lt_end_iff]
      simp [hhas, le_iff_lt_or_eq]
  rw [hlower, hupper, Range.Admits]
  constructor
  · rintro ⟨hlt | ⟨heq, hlow⟩, hgt | ⟨heq', hup⟩⟩
    · exact absurd hlt (lt_asymm hgt)
    · exact absurd heq' hlt.ne'
    · exact absurd heq hgt.ne
    · exact ⟨heq, hlow, hup⟩
  · rintro ⟨heq, hlow, hup⟩
    exact ⟨Or.inr ⟨heq, hlow⟩, Or.inr ⟨heq, hup⟩⟩

/-- **What a scan goes over**: the records of its partition that its range admits, in the order of
their keys or against it. -/
theorem scanned_eq (h : Accepted family) (range : Range) :
    Store.scanned family range =
      if range.reverse then
        ((recordsIn family range.partition).filter fun held =>
          range.Admits (Store.composedKey held.1)).reverse
      else (recordsIn family range.partition).filter fun held =>
        range.Admits (Store.composedKey held.1) := by
  have hsame : (family.toList.filter fun held =>
      ¬held.1 < (if range.hasLower = true then
          Store.partitionPrefix range.partition ++ range.lower
        else Store.partitionPrefix range.partition) ∧
      held.1 < (if range.hasUpper = true then
          Store.partitionPrefix range.partition ++ range.upper
        else Store.partitionPrefix (range.partition + 1))) =
      (recordsIn family range.partition).filter fun held =>
        range.Admits (Store.composedKey held.1) := by
    rw [recordsIn, List.filter_filter]
    refine List.filter_congr fun held hmem => ?_
    have hvalue : family[held.1]? = some held.2 :=
      Std.ExtTreeMap.mem_toList_iff_getElem?_eq_some.mp hmem
    have hkey : held.1 ∈ family := by
      rw [← Std.ExtTreeMap.isSome_getElem?_iff_mem, hvalue]
      rfl
    obtain ⟨named, -, -, heq⟩ := h held.1 hkey
    rw [heq, Store.composedKey_storeKey, Store.partitionHeld_storeKey, Bool.eq_iff_iff,
      decide_eq_true_iff, between_iff, Bool.and_eq_true, decide_eq_true_iff, decide_eq_true_iff,
      and_comm, Fin.ext_iff]
  unfold Store.scanned
  dsimp only
  rw [hsame]

/-! ### A page -/

/-- What was taken of a list, up to the last of it. -/
theorem exists_take_eq {α : Type} {l : List α} {n : ℕ} (hpos : 0 < n) (hle : n ≤ l.length) :
    ∃ read next, l.take n = read ++ [next] ∧ n = read.length + 1 ∧ l =
      read ++ next :: l.drop n := by
  have hne : l.take n ≠ [] := by
    intro hnil
    have hlength := congrArg List.length hnil
    rw [List.length_take, List.length_nil] at hlength
    omega
  have htake := (List.dropLast_append_getLast hne).symm
  refine ⟨_, _, htake, ?_, ?_⟩
  · have hlength := congrArg List.length htake
    simpa [hle] using hlength
  · conv_lhs => rw [← List.take_append_drop n l, htake]
    simp

/-- A page that is being filled is inside its limits. -/
def Fits (range : Range) (count bytes : ℕ) : Prop :=
  count ≤ range.limit ∧ (count ≤ 1 ∨ bytes ≤ maxPageBytes)

/-- The bytes that records take of a page. -/
def bytesOf (range : Range) (held : List (Bytes × Bytes)) : ℕ := (held.map (sizeOf range)).sum

theorem Fits.mono {range : Range} {count bytes more most : ℕ} (h : Fits range more most)
    (hcount : count ≤ more) (hbytes : bytes ≤ most) : Fits range count bytes := by
  obtain ⟨hlimit, hfirst | hmost⟩ := h
  · exact ⟨by omega, Or.inl (by omega)⟩
  · exact ⟨by omega, Or.inr (by omega)⟩

/-- **A page is the front of what its scan goes over**, says whether something is left, and stays
inside its limits, which it does not with the next record. -/
theorem fill_eq (range : Range) (held : List (Bytes × Bytes)) (page : Page) (bytes : ℕ)
    (hmore : page.hasMore = false) (hfits : Fits range page.records.length bytes) :
    ∃ taken ≤ held.length, fill range held page bytes =
      { records := page.records ++ (held.take taken).map (read range)
        hasMore := decide (taken < held.length) } ∧
      Fits range (page.records.length + taken) (bytes + bytesOf range (held.take taken)) ∧
      (taken < held.length → ¬Fits range (page.records.length + (taken + 1))
        (bytes + bytesOf range (held.take (taken + 1)))) := by
  induction held generalizing page bytes with
  | nil => exact ⟨0, le_rfl, by cases page; simp_all [fill], hfits, fun hlt => absurd hlt (by simp)⟩
  | cons first held ih =>
    have hstop : ({ page with hasMore := true } : Page) =
        { records := page.records ++ ((first :: held).take 0).map (read range)
          hasMore := decide (0 < (first :: held).length) } := by
      simp
    rw [fill]
    split_ifs with hfull hbytes
    · refine ⟨0, Nat.zero_le _, hstop, hfits, fun _ hno => ?_⟩
      have hlimit := hno.1
      omega
    · refine ⟨0, Nat.zero_le _, hstop, hfits, fun _ hno => ?_⟩
      have hsome := List.length_pos_of_ne_nil hbytes.1
      have hover : bytes + bytesOf range ((first :: held).take (0 + 1)) =
          bytes + sizeOf range first := by
        simp [bytesOf]
      rw [hover] at hno
      have hmost := hno.2
      omega
    · have hfits' : Fits range (page.records ++ [read range first]).length
          (bytes + sizeOf range first) := by
        have hlimit := hfits.1
        rw [not_and, not_lt] at hbytes
        refine ⟨by rw [List.length_append, List.length_singleton]; omega, ?_⟩
        by_cases hnone : page.records = []
        · exact Or.inl (by simp [hnone])
        · exact Or.inr (hbytes hnone)
      obtain ⟨taken, hle, hfill, hfitted, hnext⟩ := ih
        { page with records := page.records ++ [read range first] }
          (bytes + sizeOf range first) hmore
        hfits'
      refine ⟨taken + 1, Nat.succ_le_succ hle, ?_, ?_, fun hlt => ?_⟩
      · rw [hfill]
        simp
      · rw [List.length_append, List.length_singleton, add_assoc, add_comm 1, add_assoc] at hfitted
        exact hfitted
      · have hno := hnext (Nat.lt_of_succ_lt_succ hlt)
        rw [List.length_append, List.length_singleton, add_assoc, add_comm 1 (taken + 1),
          add_assoc bytes] at hno
        exact hno

/-- The page of a scan: it has a record wherever there is one to have. -/
theorem fill_start (range : Range) (hlimit : 0 < range.limit) (held : List (Bytes × Bytes)) :
    ∃ taken ≤ held.length, fill range held {} 0 =
      { records := (held.take taken).map (read range), hasMore := decide (taken < held.length) } ∧
      Fits range taken (bytesOf range (held.take taken)) ∧ (held ≠ [] → 0 < taken) := by
  obtain ⟨taken, hle, hfill, hfits, -⟩ :=
    fill_eq range held {} 0 rfl ⟨Nat.zero_le _, Or.inl (Nat.zero_le _)⟩
  simp only [List.nil_append, List.length_nil, zero_add] at hfill hfits
  refine ⟨taken, hle, hfill, hfits, fun hne => ?_⟩
  obtain ⟨first, held, rfl⟩ := List.exists_cons_of_ne_nil hne
  -- the first record is never refused
  obtain ⟨more, -, hfill', -, -⟩ := fill_eq range held { records := [read range first] }
    (sizeOf range first) rfl ⟨hlimit, Or.inl le_rfl⟩
  have hfirst : fill range (first :: held) {} 0 =
      fill range held { records := [read range first] } (sizeOf range first) := by
    rw [fill, if_neg (by simpa using hlimit.ne), if_neg (by simp)]
    simp
  rw [hfill, hfill'] at hfirst
  have hrecords := congrArg (fun page : Page => page.records.length) hfirst
  simp only [List.length_map, List.length_take, List.length_append,
    List.length_singleton] at hrecords
  omega

/-- A record has a place on the page: it fits there with those in front of it. -/
def OnPage (range : Range) (held : List (Bytes × Bytes)) (one : Bytes × Bytes) : Prop :=
  ∃ before behind, held = before ++ one :: behind ∧
    Fits range (before.length + 1) (bytesOf range (before ++ [one]))

theorem bytesOf_take_le (range : Range) (held : List (Bytes × Bytes)) {m n : ℕ} (h : m ≤ n) :
    bytesOf range (held.take m) ≤ bytesOf range (held.take n) := by
  have hsplit : held.take n = held.take m ++ (held.take n).drop m := by
    conv_lhs => rw [← List.take_append_drop m (held.take n), List.take_take, min_eq_left h]
  rw [hsplit, bytesOf, bytesOf, List.map_append, List.sum_append]
  omega

/-- **The records of a page** are those that have a place on it. -/
theorem fill_onPage (range : Range) (held : List (Bytes × Bytes)) :
    ∃ taken, fill range held {} 0 =
      { records := (held.take taken).map (read range), hasMore := decide (taken < held.length) } ∧
      ∀ one, one ∈ held.take taken ↔ OnPage range held one := by
  obtain ⟨taken, hle, hfill, hfits, hnext⟩ :=
    fill_eq range held {} 0 rfl ⟨Nat.zero_le _, Or.inl (Nat.zero_le _)⟩
  simp only [List.nil_append, List.length_nil, zero_add] at hfill hfits hnext
  refine ⟨taken, hfill, fun one => ⟨fun hmem => ?_, ?_⟩⟩
  · obtain ⟨before, rest, htake⟩ := List.append_of_mem hmem
    refine ⟨before, rest ++ held.drop taken, ?_, hfits.mono ?_ ?_⟩
    · conv_lhs => rw [← List.take_append_drop taken held, htake]
      simp
    · have hlength := congrArg List.length htake
      simp only [List.length_take, List.length_append, List.length_cons] at hlength
      omega
    · rw [htake]
      simp [bytesOf]
  · rintro ⟨before, behind, rfl, hfit⟩
    have hlt : before.length < taken := by
      by_contra hno
      -- what fits with one more in front fits without it
      refine hnext ?_ (hfit.mono (by omega) ?_)
      · simp only [List.length_append, List.length_cons] at hle ⊢
        omega
      · have htake : before ++ [one] = (before ++ one :: behind).take (before.length + 1) := by
          rw [List.take_append]
          simp
        rw [htake]
        exact bytesOf_take_le range _ (by omega)
    rw [List.take_append, List.mem_append]
    refine Or.inr ?_
    obtain ⟨more, hmore⟩ : ∃ more, taken - before.length = more + 1 :=
      ⟨taken - before.length - 1, by omega⟩
    rw [hmore, List.take_succ_cons]
    exact List.mem_cons_self

/-- Two records that fit one page are both on it, where it may have two. -/
theorem two_le_length_fill (range : Range) (hlimit : 2 ≤ range.limit) {first second : Bytes × Bytes}
    (hsize : sizeOf range first + sizeOf range second ≤ maxPageBytes)
    (rest : List (Bytes × Bytes)) :
    2 ≤ (fill range (first :: second :: rest) {} 0).records.length := by
  obtain ⟨taken, -, hfill, -⟩ := fill_eq range rest
    { records := [read range first, read range second] }
      (sizeOf range first + sizeOf range second) rfl
    ⟨hlimit, Or.inr hsize⟩
  have hboth : fill range (first :: second :: rest) {} 0 =
      fill range rest { records := [read range first, read range second] }
        (sizeOf range first + sizeOf range second) := by
    rw [fill, if_neg (by simp only [List.length_nil]; omega), if_neg (by simp), fill,
      if_neg (by simp only [List.nil_append, List.length_singleton]; omega), if_neg (by
        rw [zero_add]
        exact fun hover => absurd hover.2 (not_lt.mpr hsize))]
    simp
  rw [hboth, hfill]
  simp

/-- A scan from one of the records of a sorted list goes over that record and those behind it. -/
theorem filter_not_lt_eq {before behind : List (Bytes × Bytes)} {held : Bytes × Bytes}
    (hsorted : ((before ++ held :: behind).map fun held => Store.composedKey held.1).Pairwise
      (· < ·)) :
    ((before ++ held :: behind).filter fun other =>
      ¬Store.composedKey other.1 < Store.composedKey held.1) = held :: behind := by
  rw [List.map_append, List.pairwise_append, List.map_cons, List.pairwise_cons] at hsorted
  obtain ⟨-, ⟨hbehind, -⟩, hbefore⟩ := hsorted
  have hnone : (before.filter fun other =>
      ¬Store.composedKey other.1 < Store.composedKey held.1) = [] := by
    rw [List.filter_eq_nil_iff]
    intro other hmem
    simpa using hbefore _ (List.mem_map_of_mem hmem) _ List.mem_cons_self
  have hall : ((held :: behind).filter fun other =>
      ¬Store.composedKey other.1 < Store.composedKey held.1) = held :: behind := by
    rw [List.filter_eq_self]
    intro other hmem
    rw [decide_eq_true_iff]
    rcases List.mem_cons.mp hmem with rfl | hin
    · exact List.lt_irrefl _
    · exact List.lt_asymm (hbehind _ (List.mem_map_of_mem hin))
  rw [List.filter_append, hnone, hall, List.nil_append]

end Scan

/-- The keys that a scan goes over are text. -/
theorem Accepted.utf8_of_mem_scanned (haccepted : Accepted family) (range : Scan.Range)
    {held : Bytes × Bytes} (hmem : held ∈ Store.scanned family range) :
    Utf8.valid (Store.composedKey held.1) = true := by
  have hin : held ∈ recordsIn family range.partition := by
    rw [Scan.scanned_eq haccepted] at hmem
    split_ifs at hmem
    · exact (List.mem_filter.mp (List.mem_reverse.mp hmem)).1
    · exact (List.mem_filter.mp hmem).1
  obtain ⟨named, record, hparse, hkey, -⟩ := haccepted.of_mem_recordsIn hin
  rw [hkey, Store.composedKey_storeKey]
  exact (Record.exists_parseKey_iff.mp ⟨record, hparse⟩).1

end AsyncDatabase
