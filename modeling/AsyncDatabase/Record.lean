import AsyncDatabase.Error
import AsyncDatabase.Library.Utf8
import Mathlib.Data.List.TakeWhile
import Mathlib.Data.Prod.Lex

/-!
# Records

A record's key, the version it was written in and the value as the store holds it
(`record/record.h`, `record/record.cpp`). A stored value is sixteen bytes of version, most
significant first, and the value behind them.
-/

namespace AsyncDatabase

open Bytes (ascii bigEndianValue bigEndianValue_cons bigEndianValue_append bigEndianValue_lt
  lt_iff_bigEndianValue_lt)

/-- `record::version`: the term is a signed number of 64 bits and the count an unsigned one. -/
structure Version where
  term : ℤ := 0
  count : ℕ := 0
  deriving DecidableEq, Repr

/-- `record::record`. -/
structure Record where
  key : Bytes
  value : Bytes
  stamp : Version := {}
  deriving DecidableEq, Repr

/-- A signed number of 64 bits as the unsigned one with the same bits. -/
def toUInt64 (n : ℤ) : ℕ := (n % 2 ^ 64).toNat

/-- An unsigned number of 64 bits as the signed one with the same bits. -/
def toInt64 (n : ℕ) : ℤ :=
  if n % 2 ^ 64 < 2 ^ 63 then (n % 2 ^ 64 : ℕ) else (n % 2 ^ 64 : ℕ) - 2 ^ 64

theorem toInt64_of_lt {n : ℕ} (h : n < 2 ^ 63) : toInt64 n = n := by
  rw [toInt64, Nat.mod_eq_of_lt (by omega), if_pos h]

theorem toInt64_bounds (n : ℕ) : -2 ^ 63 ≤ toInt64 n ∧ toInt64 n < 2 ^ 63 := by
  unfold toInt64
  split_ifs <;> omega

/-- A count above the signed numbers is written as a negative one. -/
theorem toInt64_neg_of_le {n : ℕ} (h : 2 ^ 63 ≤ n) (hn : n < 2 ^ 64) : toInt64 n < 0 := by
  unfold toInt64
  rw [Nat.mod_eq_of_lt hn, if_neg (by omega)]
  omega

namespace Version

/-- The version is one of the machine's: a signed and an unsigned number of 64 bits. -/
structure Fits (v : Version) : Prop where
  term_ge : -2 ^ 63 ≤ v.term
  term_lt : v.term < 2 ^ 63
  count_lt : v.count < 2 ^ 64

/-- The version is one a schema's document keeps: its term is not negative, and its count fits the
signed number the document writes it as. -/
structure Documented (v : Version) : Prop where
  term_nonneg : 0 ≤ v.term
  term_lt : v.term < 2 ^ 63
  count_lt : v.count < 2 ^ 63

theorem documented_iff {v : Version} :
    v.Documented ↔ 0 ≤ v.term ∧ v.term < 2 ^ 63 ∧ v.count < 2 ^ 63 :=
  ⟨fun h => ⟨h.term_nonneg, h.term_lt, h.count_lt⟩, fun h => ⟨h.1, h.2.1, h.2.2⟩⟩

instance : DecidablePred Documented := fun _ => decidable_of_iff _ documented_iff.symm

/-- The version a schema's document gives back for one that was written into it. -/
def asWritten (v : Version) : Version where
  term := max v.term 0
  count := if v.count < 2 ^ 63 then v.count else 0

theorem Documented.fits {v : Version} (h : v.Documented) : v.Fits where
  term_ge := by have := h.term_nonneg; omega
  term_lt := h.term_lt
  count_lt := by have := h.count_lt; omega

theorem asWritten_eq_iff {v : Version} (h : v.Fits) : v.asWritten = v ↔ v.Documented := by
  obtain ⟨term, count⟩ := v
  obtain ⟨hge, hlt, hcount⟩ := h
  dsimp only at hge hlt hcount
  rw [asWritten, Version.mk.injEq]
  dsimp only
  constructor
  · rintro ⟨hterm, hkept⟩
    refine ⟨by dsimp only; omega, hlt, ?_⟩
    dsimp only
    by_contra hlarge
    rw [if_neg hlarge] at hkept
    omega
  · rintro ⟨hterm, -, hsmall⟩
    dsimp only at hterm hsmall
    exact ⟨by omega, if_pos hsmall⟩

/-- `is_newer` of `table/schema.cpp`: the later term, and within a term the later count. -/
def isNewer (stamp than : Version) : Bool :=
  if stamp.term ≠ than.term then stamp.term > than.term else stamp.count > than.count

theorem isNewer_iff {v w : Version} :
    v.isNewer w = true ↔ w.term < v.term ∨ v.term = w.term ∧ w.count < v.count := by
  unfold isNewer
  split_ifs with h
  · rw [decide_eq_true_iff]
    constructor
    · exact Or.inl
    · rintro (hlt | ⟨heq, -⟩)
      · exact hlt
      · exact absurd heq h
  · rw [not_not] at h
    rw [decide_eq_true_iff]
    constructor
    · exact fun hc => Or.inr ⟨h, hc⟩
    · rintro (hlt | ⟨-, hc⟩)
      · omega
      · exact hc

/-- Where a version stands among all versions: by its term, and within a term by its count. -/
def rank (v : Version) : ℤ ×ₗ ℕ := toLex (v.term, v.count)

theorem rank_inj {v w : Version} : v.rank = w.rank ↔ v = w := by
  obtain ⟨term, count⟩ := v
  obtain ⟨term', count'⟩ := w
  simp [rank]

theorem isNewer_iff_rank_lt {v w : Version} : v.isNewer w = true ↔ w.rank < v.rank := by
  rw [isNewer_iff, rank, rank, Prod.Lex.toLex_lt_toLex]
  simp only [eq_comm (a := v.term)]

end Version

namespace Record

def maxKeySize : ℕ := 4 * 1024

def maxValueSize : ℕ := 16 * 1024 * 1024

/-! ### Keys -/

def sortSeparator : UInt8 := 0

def composeKey (partition sort : Bytes) : Bytes :=
  if sort = [] then partition else partition ++ [sortSeparator] ++ sort

/-- What comes before the first separator, and the whole key where there is none. -/
def partitionKey (key : Bytes) : Bytes := key.takeWhile (· ≠ sortSeparator)

def sortKey (key : Bytes) : Bytes := (key.dropWhile (· ≠ sortSeparator)).drop 1

/-! ### Stored values -/

def versionSize : ℕ := 16

/-- Eight bytes, most significant first. -/
def bigEndian (number : ℕ) : Bytes :=
  (List.range 8).map fun i => UInt8.ofNat (number >>> (8 * (7 - i)) &&& 0xff)

def readBigEndian (bytes : Bytes) : ℕ :=
  (bytes.take 8).foldl (fun number byte => (number <<< 8 ||| byte.toNat) % 2 ^ 64) 0

def composeValue (stamp : Version) (value : Bytes) : Bytes :=
  bigEndian (toUInt64 stamp.term) ++ bigEndian stamp.count ++ value

def versionOf (stored : Bytes) : Version :=
  if stored.length < versionSize then {}
  else { term := toInt64 (readBigEndian stored), count := readBigEndian (stored.drop 8) }

def valueOf (stored : Bytes) : Bytes :=
  if stored.length < versionSize then [] else stored.drop versionSize

/-- Whether the first of two stored values was written after the second: the bytes of the two
versions compared, which is comparing the versions. -/
def isNewer (stored than : Bytes) : Bool :=
  if stored.length < versionSize then false
  else if than.length < versionSize then true
  else than.take versionSize < stored.take versionSize

/-! ### What a client may name -/

def validRecord (key value : Bytes) : Record := { key := key, value := value }

def parseKey (key : Bytes) : Except ErrorMessage Record :=
  if !Utf8.valid key then
    .error ⟨.invalidKeyEncoding, ascii "Key does not percent decode to valid UTF-8."⟩
  else if maxKeySize < key.length then
    .error ⟨.keyTooLarge,
      ascii "Key is longer than " ++ Bytes.decimal maxKeySize ++ ascii " bytes."⟩
  else .ok (validRecord key [])

def parseRecord (key value : Bytes) : Except ErrorMessage Record :=
  match parseKey key with
  | .error refused => .error refused
  | .ok _ =>
    if maxValueSize < value.length then
      .error ⟨.valueTooLarge,
        ascii "Value is longer than " ++ Bytes.decimal maxValueSize ++ ascii " bytes."⟩
    else .ok (validRecord key value)

/-! ### Versions as bytes -/

theorem readBigEndian_eq (bytes : Bytes) : readBigEndian bytes = bigEndianValue (bytes.take 8) := by
  have hrun : ∀ (l : Bytes) (n : ℕ), n * 256 ^ l.length + bigEndianValue l < 2 ^ 64 →
      l.foldl (fun number byte => (number <<< 8 ||| byte.toNat) % 2 ^ 64) n =
        n * 256 ^ l.length + bigEndianValue l := by
    intro l
    induction l with
    | nil => intro n _; simp [bigEndianValue]
    | cons b l ih =>
      intro n hn
      rw [bigEndianValue_cons, List.length_cons, pow_succ (256 : ℕ)] at hn ⊢
      have hb := b.toNat_lt
      have hpos : 1 ≤ 256 ^ l.length := Nat.one_le_pow _ _ (by norm_num)
      have hstep : n <<< 8 ||| b.toNat = 256 * n + b.toNat := by
        rw [← Nat.shiftLeft_add_eq_or_of_lt hb, Nat.shiftLeft_eq]
        ring
      have hlt : 256 * n + b.toNat < 2 ^ 64 := by nlinarith
      rw [List.foldl_cons, hstep, Nat.mod_eq_of_lt hlt, ih _ (by nlinarith)]
      ring
  have hlen : (bytes.take 8).length ≤ 8 := List.length_take_le 8 bytes
  have hlt := bigEndianValue_lt (bytes.take 8)
  have hpow : 256 ^ (bytes.take 8).length ≤ 256 ^ 8 := Nat.pow_le_pow_right (by norm_num) hlen
  rw [readBigEndian, hrun _ 0 (by omega)]
  omega

@[simp] theorem length_bigEndian (n : ℕ) : (bigEndian n).length = 8 := by simp [bigEndian]

theorem bigEndianValue_bigEndian {n : ℕ} (h : n < 2 ^ 64) : bigEndianValue (bigEndian n) = n := by
  have hbyte : ∀ k, (UInt8.ofNat (n >>> k &&& 0xff)).toNat = n / 2 ^ k % 256 := by
    intro k
    rw [UInt8.toNat_ofNat', Nat.shiftRight_eq_div_pow, show (0xff : ℕ) = 2 ^ 8 - 1 by norm_num,
      Nat.and_two_pow_sub_one_eq_mod]
    omega
  simp only [bigEndian, bigEndianValue, show List.range 8 = [0, 1, 2, 3, 4, 5, 6, 7] by decide,
    List.map_cons, List.map_nil, List.foldl_cons, List.foldl_nil, hbyte]
  norm_num
  omega

theorem toInt64_toUInt64 {n : ℤ} (h : -2 ^ 63 ≤ n) (h' : n < 2 ^ 63) :
    toInt64 (toUInt64 n) = n := by
  unfold toInt64 toUInt64
  split_ifs <;> omega

theorem toUInt64_lt (n : ℤ) : toUInt64 n < 2 ^ 64 := by
  unfold toUInt64
  omega

theorem length_composeValue (stamp : Version) (value : Bytes) :
    (composeValue stamp value).length = versionSize + value.length := by
  simp only [composeValue, versionSize, List.length_append, length_bigEndian]

/-- A value that was stored gives back the version it was stored in. -/
theorem versionOf_composeValue {stamp : Version} (h : stamp.Fits) (value : Bytes) :
    versionOf (composeValue stamp value) = stamp := by
  have hlen := length_composeValue stamp value
  have hterm : readBigEndian (composeValue stamp value) = toUInt64 stamp.term := by
    rw [readBigEndian_eq, composeValue, List.append_assoc, List.take_left' (length_bigEndian _),
      bigEndianValue_bigEndian (toUInt64_lt _)]
  have hcount : readBigEndian ((composeValue stamp value).drop 8) = stamp.count := by
    rw [readBigEndian_eq, composeValue, List.append_assoc, List.drop_left' (length_bigEndian _),
      List.take_left' (length_bigEndian _), bigEndianValue_bigEndian h.count_lt]
  rw [versionOf, if_neg (by omega), hterm, hcount, toInt64_toUInt64 h.term_ge h.term_lt]

theorem valueOf_composeValue (stamp : Version) (value : Bytes) :
    valueOf (composeValue stamp value) = value := by
  have hlen := length_composeValue stamp value
  rw [valueOf, if_neg (by omega), composeValue, List.drop_left']
  simp [versionSize]

/-- The bytes of a version as one number: its term and its count behind it. -/
theorem bigEndianValue_take_versionSize {stored : Bytes} (h : versionSize ≤ stored.length) :
    bigEndianValue (stored.take versionSize) =
      readBigEndian stored * 2 ^ 64 + readBigEndian (stored.drop 8) := by
  have hsplit : stored.take versionSize = stored.take 8 ++ (stored.drop 8).take 8 := by
    rw [versionSize, show 16 = 8 + 8 by norm_num, List.take_add]
  have hlen : ((stored.drop 8).take 8).length = 8 := by
    rw [List.length_take, List.length_drop]
    simp only [versionSize] at h
    omega
  rw [hsplit, bigEndianValue_append, hlen, readBigEndian_eq, readBigEndian_eq]
  norm_num

/-- Of two stored values that both have versions, with no negative term, the bytes say which is
newer exactly as the versions do. -/
theorem isNewer_eq {stored than : Bytes} (hs : versionSize ≤ stored.length)
    (ht : versionSize ≤ than.length) (hsterm : 0 ≤ (versionOf stored).term)
    (htterm : 0 ≤ (versionOf than).term) :
    isNewer stored than = (versionOf stored).isNewer (versionOf than) := by
  have hlow : ∀ bytes : Bytes, readBigEndian bytes < 2 ^ 64 := by
    intro bytes
    have hlen : (bytes.take 8).length ≤ 8 := List.length_take_le 8 bytes
    have hlt := bigEndianValue_lt (bytes.take 8)
    have hpow : 256 ^ (bytes.take 8).length ≤ 256 ^ 8 := Nat.pow_le_pow_right (by norm_num) hlen
    rw [readBigEndian_eq]
    omega
  have hnonneg : ∀ n : ℕ, n < 2 ^ 64 → 0 ≤ toInt64 n → toInt64 n = n := by
    intro n hn h
    unfold toInt64 at h ⊢
    split_ifs at h ⊢ <;> omega
  have hlength : (than.take versionSize).length = (stored.take versionSize).length := by
    rw [List.length_take, List.length_take]
    omega
  rw [isNewer, if_neg (by omega), if_neg (by omega), Bool.eq_iff_iff, decide_eq_true_iff,
    lt_iff_bigEndianValue_lt hlength, bigEndianValue_take_versionSize hs,
    bigEndianValue_take_versionSize ht, Version.isNewer_iff]
  rw [versionOf, if_neg (by omega)] at hsterm htterm ⊢
  rw [versionOf, if_neg (by omega)]
  dsimp only at hsterm htterm ⊢
  rw [hnonneg _ (hlow stored) hsterm, hnonneg _ (hlow than) htterm]
  have h1 := hlow (stored.drop 8)
  have h2 := hlow (than.drop 8)
  omega

/-- Of two stored values only one is newer. -/
theorem isNewer_asymm {stored than : Bytes} (h : isNewer stored than = true) :
    isNewer than stored = false := by
  by_cases hs : stored.length < versionSize
  · rw [isNewer, if_pos hs] at h
    cases h
  · rw [isNewer, if_neg hs] at h
    rw [isNewer, if_neg hs]
    split_ifs at h ⊢ with ht
    · rfl
    · exact decide_eq_false (List.lt_asymm (of_decide_eq_true h))

@[simp] theorem isNewer_self (stored : Bytes) : isNewer stored stored = false := by
  unfold isNewer
  split_ifs
  · rfl
  · exact decide_eq_false (List.lt_irrefl _)

/-! ### What a request names -/

theorem key_of_parseKey {key : Bytes} {record : Record} (h : parseKey key = .ok record) :
    record.key = key := by
  unfold parseKey at h
  split_ifs at h
  cases h
  rfl

/-- The keys that are accepted: text, and no longer than a key may be. -/
theorem exists_parseKey_iff {key : Bytes} :
    (∃ record, parseKey key = .ok record) ↔ Utf8.valid key = true ∧ key.length ≤ maxKeySize := by
  unfold parseKey
  split_ifs with hvalid hlength
  · simpa using fun htext : Utf8.valid key = true => by simp [htext] at hvalid
  · simpa using fun _ => hlength
  · simpa using And.intro (by simpa using hvalid) (not_lt.mp hlength)

theorem key_of_parseRecord {key value : Bytes} {record : Record}
    (h : parseRecord key value = .ok record) : record.key = key := by
  unfold parseRecord at h
  split at h
  · cases h
  · split_ifs at h
    cases h
    rfl

/-! ### The halves of a key -/

theorem dropWhile_eq_cons {key : Bytes} (h : sortSeparator ∈ key) :
    key.dropWhile (· ≠ sortSeparator) = sortSeparator :: sortKey key := by
  induction key with
  | nil => cases h
  | cons b key ih =>
    by_cases hb : b = sortSeparator
    · subst hb
      simp [sortKey]
    · have hmem : sortSeparator ∈ key := (List.mem_cons.mp h).resolve_left (Ne.symm hb)
      have hdrop : (b :: key).dropWhile (· ≠ sortSeparator) = key.dropWhile (· ≠ sortSeparator) :=
        List.dropWhile_cons_of_pos (by simpa using hb)
      rw [sortKey, hdrop, ih hmem]
      rfl

/-- A key with a separator is its two halves with it between them. -/
theorem key_eq_of_mem {key : Bytes} (h : sortSeparator ∈ key) :
    key = partitionKey key ++ sortSeparator :: sortKey key := by
  conv_lhs => rw [← List.takeWhile_append_dropWhile (p := (· ≠ sortSeparator)) (l := key)]
  rw [dropWhile_eq_cons h]
  rfl

theorem halves_of_notMem {key : Bytes} (h : sortSeparator ∉ key) :
    partitionKey key = key ∧ sortKey key = [] := by
  have hall : ∀ b ∈ key, decide (b ≠ sortSeparator) = true := fun b hb =>
    decide_eq_true fun heq => h (heq ▸ hb)
  refine ⟨List.takeWhile_eq_self_iff.mpr hall, ?_⟩
  rw [sortKey, List.dropWhile_eq_nil_iff.mpr hall]
  rfl

/-- **The halves of a key make up the key** exactly where a key with a separator has a second
half. -/
theorem composeKey_halves_iff {key : Bytes} :
    composeKey (partitionKey key) (sortKey key) = key ↔
      (sortSeparator ∈ key → sortKey key ≠ []) := by
  by_cases hmem : sortSeparator ∈ key
  · simp only [hmem, forall_const]
    rw [composeKey]
    split_ifs with hnil
    · have hkey := key_eq_of_mem hmem
      refine ⟨fun heq => ?_, fun hno => absurd hnil hno⟩
      rw [hnil] at hkey
      have hlength := congrArg List.length (heq.trans hkey)
      simp at hlength
    · refine ⟨fun _ => hnil, fun _ => ?_⟩
      rw [List.append_assoc]
      exact (key_eq_of_mem hmem).symm
  · obtain ⟨hpartition, hsort⟩ := halves_of_notMem hmem
    rw [hpartition, hsort]
    simp [composeKey, hmem]

/-- The halves of a key that is text are text. -/
theorem utf8_halves {key : Bytes} (h : Utf8.valid key = true) :
    Utf8.valid (partitionKey key) = true ∧ Utf8.valid (sortKey key) = true := by
  by_cases hmem : sortSeparator ∈ key
  · rw [key_eq_of_mem hmem, Utf8.valid_append_cons (by decide), Bool.and_eq_true_iff] at h
    exact h
  · obtain ⟨hpartition, hsort⟩ := halves_of_notMem hmem
    rw [hpartition, hsort]
    exact ⟨h, rfl⟩

end Record

end AsyncDatabase
