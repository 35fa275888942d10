import Mathlib.Tactic
import Mathlib.Data.Nat.Digits.Lemmas

/-!
# Byte strings

`Bytes` is a string of bytes of any kind, text or not. `ascii` writes down a literal, `decimal` and
`readDecimal` are the decimal notation of a natural number and its reading, and `bigEndianValue` is
the number a string of bytes is, which orders strings of one length as they are ordered.
-/

/-- A string as its bytes, most of which are text and none of which have to be. -/
abbrev Bytes := List UInt8

namespace Bytes

instance : LawfulBEq Bytes := inferInstance

/-- The bytes of a literal of ASCII characters. -/
def ascii (text : String) : Bytes := text.toList.map fun c => c.val.toUInt8

/-! ### Decimal notation -/

/-- The byte of a decimal digit. -/
def digit (d : ℕ) : UInt8 := UInt8.ofNat (48 + d)

def isDigit (b : UInt8) : Bool := 48 ≤ b && b ≤ 57

/-- A number in decimal, without leading zeros. -/
def decimal (n : ℕ) : Bytes :=
  if n = 0 then [48] else ((Nat.digits 10 n).map digit).reverse

/-- The number a string of decimal digits stands for, however many zeros lead it. -/
def valueOf (s : Bytes) : ℕ := s.foldl (fun n b => 10 * n + (b.toNat - 48)) 0

/-- The number a string of one or more decimal digits stands for, and nothing for another string. -/
def readDecimal (s : Bytes) : Option ℕ :=
  if s ≠ [] ∧ s.all isDigit then some (valueOf s) else none

theorem digit_toNat {d : ℕ} (h : d < 10) : (digit d).toNat = 48 + d := by
  rw [digit, UInt8.toNat_ofNat']
  omega

theorem isDigit_digit {d : ℕ} (h : d < 10) : isDigit (digit d) = true := by
  have hd := digit_toNat h
  rw [isDigit, Bool.and_eq_true, decide_eq_true_iff, decide_eq_true_iff, UInt8.le_iff_toNat_le,
    UInt8.le_iff_toNat_le, hd]
  exact ⟨Nat.le_add_right 48 d, by show 48 + d ≤ 57; omega⟩

theorem decimal_ne_nil (n : ℕ) : decimal n ≠ [] := by
  unfold decimal
  split_ifs with h
  · simp
  · simpa using Nat.digits_ne_nil_iff_ne_zero.mpr h

theorem isDigit_of_mem_decimal {n : ℕ} {b : UInt8} (h : b ∈ decimal n) : isDigit b = true := by
  unfold decimal at h
  split_ifs at h with h0
  · rw [List.mem_singleton.mp h]; decide
  · rw [List.mem_reverse, List.mem_map] at h
    obtain ⟨d, hd, rfl⟩ := h
    exact isDigit_digit (Nat.digits_lt_base (by norm_num) hd)

theorem valueOf_append_singleton (s : Bytes) (b : UInt8) :
    valueOf (s ++ [b]) = 10 * valueOf s + (b.toNat - 48) := by
  rw [valueOf, List.foldl_append]
  rfl

/-- Reading digits most significant first undoes writing them so. -/
theorem valueOf_reverse_map_digit (ds : List ℕ) (h : ∀ d ∈ ds, d < 10) :
    valueOf ((ds.map digit).reverse) = Nat.ofDigits 10 ds := by
  induction ds with
  | nil => rfl
  | cons d ds ih =>
    have hd := digit_toNat (h d List.mem_cons_self)
    rw [List.map_cons, List.reverse_cons, valueOf_append_singleton,
      ih fun d' hd' => h d' (List.mem_cons_of_mem _ hd'), hd, Nat.ofDigits_cons]
    omega

theorem valueOf_decimal (n : ℕ) : valueOf (decimal n) = n := by
  unfold decimal
  split_ifs with h
  · rw [h]; rfl
  · rw [valueOf_reverse_map_digit _ fun d hd => Nat.digits_lt_base (by norm_num) hd,
      Nat.ofDigits_digits]

theorem readDecimal_decimal (n : ℕ) : readDecimal (decimal n) = some n := by
  have hall : (decimal n).all isDigit = true :=
    List.all_eq_true.mpr fun b hb => isDigit_of_mem_decimal hb
  rw [readDecimal, if_pos ⟨decimal_ne_nil n, hall⟩, valueOf_decimal]

/-! ### Numbers as bytes -/

/-- The number a string of bytes is, most significant first. -/
def bigEndianValue (bytes : Bytes) : ℕ :=
  bytes.foldl (fun number byte => 256 * number + byte.toNat) 0

theorem foldl_bigEndianValue (bytes : Bytes) (n : ℕ) :
    bytes.foldl (fun number byte => 256 * number + byte.toNat) n =
      n * 256 ^ bytes.length + bigEndianValue bytes := by
  induction bytes generalizing n with
  | nil => simp [bigEndianValue]
  | cons b bytes ih =>
    rw [bigEndianValue, List.foldl_cons, List.foldl_cons, ih, ih, List.length_cons, pow_succ]
    ring

theorem bigEndianValue_cons (b : UInt8) (bytes : Bytes) :
    bigEndianValue (b :: bytes) = b.toNat * 256 ^ bytes.length + bigEndianValue bytes := by
  rw [bigEndianValue, List.foldl_cons, foldl_bigEndianValue]
  simp

theorem bigEndianValue_lt (bytes : Bytes) : bigEndianValue bytes < 256 ^ bytes.length := by
  induction bytes with
  | nil => simp [bigEndianValue]
  | cons b bytes ih =>
    have hb := b.toNat_lt
    rw [bigEndianValue_cons, List.length_cons, pow_succ]
    nlinarith

theorem bigEndianValue_append (a b : Bytes) :
    bigEndianValue (a ++ b) = bigEndianValue a * 256 ^ b.length + bigEndianValue b := by
  rw [bigEndianValue, List.foldl_append, foldl_bigEndianValue]
  rfl

/-- Strings of one length are ordered as the numbers they are. -/
theorem lt_iff_bigEndianValue_lt {a b : Bytes} (h : a.length = b.length) :
    a < b ↔ bigEndianValue a < bigEndianValue b := by
  induction a generalizing b with
  | nil =>
    obtain rfl : b = [] := List.eq_nil_of_length_eq_zero h.symm
    simp
  | cons x a ih =>
    obtain ⟨y, b, rfl⟩ := List.exists_cons_of_length_eq_add_one h.symm
    have hlen : a.length = b.length := by simpa using h
    have ha := bigEndianValue_lt a
    have hb := bigEndianValue_lt b
    rw [List.cons_lt_cons_iff, ih hlen, bigEndianValue_cons, bigEndianValue_cons, hlen]
    rw [hlen] at ha
    rw [UInt8.lt_iff_toNat_lt, ← UInt8.toNat_inj]
    generalize 256 ^ b.length = m at *
    generalize bigEndianValue a = p at *
    generalize bigEndianValue b = q at *
    constructor
    · rintro (hlt | ⟨heq, hlt⟩)
      · nlinarith
      · rw [heq]; omega
    · intro hlt
      rcases Nat.lt_trichotomy x.toNat y.toNat with hxy | hxy | hxy
      · exact Or.inl hxy
      · rw [hxy] at hlt
        exact Or.inr ⟨hxy, by omega⟩
      · nlinarith

/-! ### Order -/

/-- The order that sorts the keys of a map is that of the strings themselves. -/
theorem compare_eq_lt_iff {a b : Bytes} : compare a b = .lt ↔ a < b := by
  change List.compareLex compare a b = .lt ↔ a < b
  induction a generalizing b with
  | nil => cases b <;> simp [List.compareLex_nil_nil, List.compareLex_nil_cons]
  | cons x a ih =>
    cases b with
    | nil => simp [List.compareLex_cons_nil]
    | cons y b =>
      rw [List.compareLex_cons_cons, Ordering.then_eq_lt, ih, List.cons_lt_cons_iff,
        Std.compare_eq_lt, Std.LawfulEqCmp.compare_eq_iff_eq]

/-- Right above a string comes the string with a zero byte behind it. -/
theorem lt_append_zero_iff {a b : Bytes} : a < b ++ [0] ↔ a < b ∨ a = b := by
  induction b generalizing a with
  | nil => cases a <;> simp [List.cons_lt_cons_iff]
  | cons y b ih =>
    cases a with
    | nil => simp
    | cons x a =>
      rw [List.cons_append, List.cons_lt_cons_iff, List.cons_lt_cons_iff, ih, List.cons_eq_cons]
      tauto

end Bytes
