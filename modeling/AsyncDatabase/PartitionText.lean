import AsyncDatabase.Partition

/-!
# A set of partitions as a text

A set of partitions travels as 64 hexadecimal digits, the highest partitions first
(`encode_partitions` and `decode_partitions` of `cluster/partition.cpp`). `partitions_survive` says
that nothing is lost on the way, and which texts are read.
-/

namespace AsyncDatabase

open Bytes (ascii)

def digits : Bytes := ascii "0123456789abcdef"

def bitsPerDigit : ℕ := 4

/-- `std::tolower`. -/
def toLower (character : UInt8) : UInt8 :=
  if 65 ≤ character ∧ character ≤ 90 then character + 32 else character

/-- The digit a character stands for, of either case. -/
def digitOf (character : UInt8) : Option ℕ := digits.idxOf? (toLower character)

/-- `partition_set::test`. -/
def testPartition (partitions : PartitionSet) (partition : ℕ) : Bool :=
  if h : partition < partitionCount then ⟨partition, h⟩ ∈ partitions else false

/-- `partition_set::set`. -/
def setPartition (partitions : PartitionSet) (partition : ℕ) : PartitionSet :=
  if h : partition < partitionCount then insert ⟨partition, h⟩ partitions else partitions

/-- The digit of the four partitions below this number. -/
def digitBelow (partitions : PartitionSet) (partition : ℕ) : ℕ :=
  (List.range bitsPerDigit).foldl
    (fun digit bit => digit * 2 + if testPartition partitions (partition - 1 - bit) then 1 else 0) 0

/-- A digit for each turn of a loop that counts down from the number of partitions. -/
def encodePartitions (partitions : PartitionSet) : Bytes :=
  (List.range (partitionCount / bitsPerDigit)).map fun i =>
    digits.getD (digitBelow partitions (partitionCount - bitsPerDigit * i)) 0

/-- The partitions a digit has, from this one down. -/
def setDigit (digit highest : ℕ) (partitions : PartitionSet) : PartitionSet :=
  (List.range bitsPerDigit).foldl
    (fun partitions bit => if (digit >>> (bitsPerDigit - 1 - bit)) &&& 1 = 1
      then setPartition partitions (highest - bit) else partitions) partitions

def decodePartitions (text : Bytes) : Option PartitionSet :=
  if text.length ≠ partitionCount / bitsPerDigit then none
  else
    (List.range text.length).foldlM (fun partitions i =>
      (digitOf (text.getD i 0)).map fun digit =>
        setDigit digit (partitionCount - 1 - bitsPerDigit * i) partitions) ∅

/-! ### Digits -/

/-- A hexadecimal digit of either case. -/
def IsHex (character : UInt8) : Prop :=
  48 ≤ character ∧ character ≤ 57 ∨ 97 ≤ character ∧ character ≤ 102 ∨
    65 ≤ character ∧ character ≤ 70

instance : DecidablePred IsHex := fun _ => inferInstanceAs (Decidable (_ ∨ _ ∨ _))

/-- A character is a digit with a value and that digit in lower case, or none. -/
theorem digitOf_cases (character : UInt8) :
    (IsHex character ∧ ∃ digit < 16, digitOf character = some digit ∧
      digits.getD digit 0 = toLower character) ∨ (¬IsHex character ∧ digitOf character = none) := by
  have hall : ∀ n < 256,
      (IsHex (UInt8.ofNat n) ∧ ∃ digit < 16, digitOf (UInt8.ofNat n) = some digit ∧
        digits.getD digit 0 = toLower (UInt8.ofNat n)) ∨
      (¬IsHex (UInt8.ofNat n) ∧ digitOf (UInt8.ofNat n) = none) := by
    decide +kernel
  rw [← UInt8.ofNat_toNat (x := character)]
  exact hall _ character.toNat_lt

theorem digitOf_digit : ∀ digit < 16, digitOf (digits.getD digit 0) = some digit := by
  decide +kernel

theorem isSome_digitOf_iff {character : UInt8} : (digitOf character).isSome ↔ IsHex character := by
  rcases digitOf_cases character with ⟨hhex, digit, -, hdigit, -⟩ | ⟨hno, hnone⟩
  · rw [hdigit]
    exact iff_of_true rfl hhex
  · rw [hnone]
    exact iff_of_false Bool.false_ne_true hno

/-- The four bits of a digit. -/
theorem digitBelow_eq (partitions : PartitionSet) (partition : ℕ) :
    digitBelow partitions partition =
      8 * (testPartition partitions (partition - 1)).toNat +
      4 * (testPartition partitions (partition - 1 - 1)).toNat +
      2 * (testPartition partitions (partition - 1 - 2)).toNat +
      (testPartition partitions (partition - 1 - 3)).toNat := by
  have hrange : List.range bitsPerDigit = [0, 1, 2, 3] := rfl
  have hbit : ∀ b : Bool, (if b = true then 1 else 0) = b.toNat := by decide
  simp only [digitBelow, hrange, List.foldl_cons, List.foldl_nil, hbit, Nat.sub_zero]
  omega

theorem digitBelow_lt (partitions : PartitionSet) (partition : ℕ) :
    digitBelow partitions partition < 16 := by
  rw [digitBelow_eq]
  have hle : ∀ b : Bool, b.toNat ≤ 1 := Bool.toNat_le
  have h0 := hle (testPartition partitions (partition - 1))
  have h1 := hle (testPartition partitions (partition - 1 - 1))
  have h2 := hle (testPartition partitions (partition - 1 - 2))
  have h3 := hle (testPartition partitions (partition - 1 - 3))
  omega

/-- A bit of the digit of a set is whether its partition is in the set. -/
theorem bit_digitBelow (partitions : PartitionSet) (partition : ℕ) {bit : ℕ}
    (hbit : bit < bitsPerDigit) :
    (digitBelow partitions partition >>> (bitsPerDigit - 1 - bit)) &&& 1 = 1 ↔
      testPartition partitions (partition - 1 - bit) = true := by
  have hbits : ∀ a b c d : Bool, ∀ bit < 4,
      ((8 * a.toNat + 4 * b.toNat + 2 * c.toNat + d.toNat) >>> (4 - 1 - bit)) &&& 1 = 1 ↔
        [a, b, c, d].getD bit false = true := by decide
  rw [digitBelow_eq]
  refine (hbits _ _ _ _ bit hbit).trans ?_
  have hcases : bit = 0 ∨ bit = 1 ∨ bit = 2 ∨ bit = 3 := by
    unfold bitsPerDigit at hbit
    omega
  rcases hcases with rfl | rfl | rfl | rfl <;> rfl

/-! ### Reading a text -/

theorem mem_setPartition {partitions : PartitionSet} {number : ℕ} {partition : Partition} :
    partition ∈ setPartition partitions number ↔ partition ∈ partitions ∨
    partition.val = number := by
  unfold setPartition
  split_ifs with h
  · rw [Finset.mem_insert, or_comm, Fin.ext_iff]
  · refine (or_iff_left fun heq => h ?_).symm
    rw [← heq]
    exact partition.isLt

theorem mem_setDigit {digit highest : ℕ} {partitions : PartitionSet} {partition : Partition} :
    partition ∈ setDigit digit highest partitions ↔ partition ∈ partitions ∨
      ∃ bit < bitsPerDigit, (digit >>> (bitsPerDigit - 1 - bit)) &&& 1 = 1 ∧
        partition.val = highest - bit := by
  have hfold : ∀ (l : List ℕ) (partitions : PartitionSet),
      partition ∈ l.foldl (fun partitions bit => if (digit >>> (bitsPerDigit - 1 - bit)) &&& 1 = 1
        then setPartition partitions (highest - bit) else partitions) partitions ↔
      partition ∈ partitions ∨ ∃ bit ∈ l, (digit >>> (bitsPerDigit - 1 - bit)) &&& 1 = 1 ∧
        partition.val = highest - bit := by
    intro l
    induction l with
    | nil => simp
    | cons bit l ih =>
      intro partitions
      rw [List.foldl_cons, ih, List.exists_mem_cons_iff, ← or_assoc]
      refine or_congr_left ?_
      split_ifs with hset
      · rw [mem_setPartition, and_iff_right hset]
      · exact (or_iff_left fun h => hset h.1).symm
  refine (hfold (List.range bitsPerDigit) partitions).trans (or_congr_right ?_)
  simp only [List.mem_range]

/-- The digit at a place of a text. -/
def valueAt (text : Bytes) (i : ℕ) : ℕ := (digitOf (text.getD i 0)).getD 0

/-- The place of a partition's digit and the bit of it. -/
theorem place_iff (partition : Partition) (i bit : ℕ) (hi : i < partitionCount / bitsPerDigit)
    (hbit : bit < bitsPerDigit) :
    partition.val = partitionCount - 1 - bitsPerDigit * i - bit ↔
      i = 63 - partition.val / 4 ∧ bit = 3 - partition.val % 4 := by
  have hlt := partition.isLt
  unfold partitionCount bitsPerDigit at *
  omega

/-- What a text of digits is read as. -/
theorem decodePartitions_eq {text : Bytes} (hlength : text.length = partitionCount / bitsPerDigit)
    (hhex : ∀ character ∈ text, IsHex character) :
    ∃ partitions, decodePartitions text = some partitions ∧ ∀ partition : Partition,
      partition ∈ partitions ↔
        (valueAt text (63 - partition.val / 4) >>> (partition.val % 4)) &&& 1 = 1 := by
  have hdigit : ∀ i < text.length, digitOf (text.getD i 0) = some (valueAt text i) := by
    intro i hi
    have hmem : text.getD i 0 ∈ text := by
      rw [List.getD_eq_getElem?_getD, List.getElem?_eq_getElem hi]
      exact List.getElem_mem hi
    obtain ⟨digit, hdigit⟩ := Option.isSome_iff_exists.mp (isSome_digitOf_iff.mpr (hhex _ hmem))
    rw [valueAt, hdigit]
    rfl
  have hfold : ∀ (l : List ℕ) (partitions : PartitionSet), (∀ i ∈ l, i < text.length) →
      ∃ read, l.foldlM (fun partitions i => (digitOf (text.getD i 0)).map fun digit =>
          setDigit digit (partitionCount - 1 - bitsPerDigit * i) partitions)
            partitions = some read ∧
        ∀ partition : Partition, partition ∈ read ↔ partition ∈ partitions ∨ ∃ i ∈ l,
          ∃ bit < bitsPerDigit, (valueAt text i >>> (bitsPerDigit - 1 - bit)) &&& 1 = 1 ∧
            partition.val = partitionCount - 1 - bitsPerDigit * i - bit := by
    intro l
    induction l with
    | nil => exact fun partitions _ => ⟨partitions, rfl, fun partition => by simp⟩
    | cons i l ih =>
      intro partitions hl
      obtain ⟨read, hread, hmem⟩ := ih (setDigit (valueAt text i) _ partitions)
        fun j hj => hl j (List.mem_cons_of_mem _ hj)
      refine ⟨read, ?_, fun partition => ?_⟩
      · rw [List.foldlM_cons, hdigit i (hl i List.mem_cons_self)]
        exact hread
      · rw [hmem, mem_setDigit, List.exists_mem_cons_iff, or_assoc]
  obtain ⟨read, hread, hmem⟩ := hfold (List.range text.length) ∅ fun i hi => List.mem_range.mp hi
  refine ⟨read, ?_, fun partition => ?_⟩
  · rw [decodePartitions, if_neg (not_not_intro hlength), hread]
  · have hshift : bitsPerDigit - 1 - (3 - partition.val % 4) = partition.val % 4 := by
      unfold bitsPerDigit
      omega
    have hbit : 3 - partition.val % 4 < bitsPerDigit := by
      unfold bitsPerDigit
      omega
    have hi : 63 - partition.val / 4 < partitionCount / bitsPerDigit := by
      unfold partitionCount bitsPerDigit
      omega
    rw [hmem, or_iff_right (Finset.notMem_empty _)]
    constructor
    · rintro ⟨i, hin, bit, hless, hset, hplace⟩
      rw [List.mem_range, hlength] at hin
      obtain ⟨rfl, rfl⟩ := (place_iff partition i bit hin hless).mp hplace
      rwa [hshift] at hset
    · intro hset
      refine ⟨_, List.mem_range.mpr (hlength ▸ hi), _, hbit, ?_,
        (place_iff partition _ _ hi hbit).mpr ⟨rfl, rfl⟩⟩
      rwa [hshift]

/-! ### There and back -/

theorem length_encodePartitions (partitions : PartitionSet) :
    (encodePartitions partitions).length = partitionCount / bitsPerDigit := by
  rw [encodePartitions, List.length_map, List.length_range]

theorem getD_encodePartitions (partitions : PartitionSet) {i : ℕ}
    (hi : i < partitionCount / bitsPerDigit) : (encodePartitions partitions).getD i 0 =
      digits.getD (digitBelow partitions (partitionCount - bitsPerDigit * i)) 0 := by
  rw [encodePartitions, List.getD_eq_getElem?_getD, List.getElem?_map, List.getElem?_range hi]
  rfl

theorem isHex_of_mem_encodePartitions {partitions : PartitionSet} {character : UInt8}
    (h : character ∈ encodePartitions partitions) : IsHex character := by
  obtain ⟨i, -, rfl⟩ := List.mem_map.mp h
  refine isSome_digitOf_iff.mp ?_
  rw [digitOf_digit _ (digitBelow_lt partitions _)]
  rfl

theorem decodePartitions_encodePartitions (partitions : PartitionSet) :
    decodePartitions (encodePartitions partitions) = some partitions := by
  obtain ⟨read, hread, hmem⟩ := decodePartitions_eq (length_encodePartitions partitions)
    fun _ => isHex_of_mem_encodePartitions
  rw [hread]
  refine congrArg some (Finset.ext fun partition => ?_)
  have hi : 63 - partition.val / 4 < partitionCount / bitsPerDigit := by
    unfold partitionCount bitsPerDigit
    omega
  have hbit : 3 - partition.val % 4 < bitsPerDigit := by
    unfold bitsPerDigit
    omega
  have hshift : bitsPerDigit - 1 - (3 - partition.val % 4) = partition.val % 4 := by
    unfold bitsPerDigit
    omega
  have hplace : partitionCount - bitsPerDigit * (63 - partition.val / 4) - 1 -
      (3 - partition.val % 4) = partition.val := by
    have hlt := partition.isLt
    unfold partitionCount bitsPerDigit at *
    omega
  rw [hmem, valueAt, getD_encodePartitions _ hi, digitOf_digit _ (digitBelow_lt partitions _),
    Option.getD_some, ← hshift, bit_digitBelow partitions _ hbit, hplace, testPartition,
    dif_pos partition.isLt, decide_eq_true_iff]

/-- A text is read where it is 64 digits, and nothing else is. -/
theorem isSome_decodePartitions_iff {text : Bytes} :
    (decodePartitions text).isSome ↔
      text.length = partitionCount / bitsPerDigit ∧ ∀ character ∈ text, IsHex character := by
  constructor
  · intro hsome
    rw [decodePartitions] at hsome
    split_ifs at hsome with hlength
    · exact absurd hsome Bool.false_ne_true
    have hfold : ∀ (l : List ℕ) (partitions : PartitionSet),
        (l.foldlM (fun partitions i => (digitOf (text.getD i 0)).map fun digit =>
          setDigit digit (partitionCount - 1 - bitsPerDigit * i) partitions) partitions).isSome →
        ∀ i ∈ l, (digitOf (text.getD i 0)).isSome := by
      intro l
      induction l with
      | nil => exact fun _ _ i hi => absurd hi List.not_mem_nil
      | cons first l ih =>
        intro partitions hsome i hi
        rw [List.foldlM_cons] at hsome
        cases hfirst : digitOf (text.getD first 0) with
        | none =>
          rw [hfirst] at hsome
          exact absurd hsome Bool.false_ne_true
        | some digit =>
          rw [hfirst] at hsome
          rcases List.mem_cons.mp hi with rfl | hi
          · rw [hfirst]
            rfl
          · exact ih _ hsome i hi
    refine ⟨not_not.mp hlength, fun character hmem => ?_⟩
    obtain ⟨i, hi, rfl⟩ := List.mem_iff_getElem.mp hmem
    have hdigit := hfold _ _ hsome i (List.mem_range.mpr hi)
    rw [List.getD_eq_getElem?_getD, List.getElem?_eq_getElem hi] at hdigit
    exact isSome_digitOf_iff.mp hdigit
  · rintro ⟨hlength, hhex⟩
    obtain ⟨read, hread, -⟩ := decodePartitions_eq hlength hhex
    rw [hread]
    rfl

/-- What was read is written as the text was, in lower case. -/
theorem encodePartitions_of_decodePartitions {text : Bytes} {partitions : PartitionSet}
    (h : decodePartitions text = some partitions) :
    encodePartitions partitions = text.map toLower := by
  have hsome : (decodePartitions text).isSome := by
    rw [h]
    rfl
  obtain ⟨hlength, hhex⟩ := isSome_decodePartitions_iff.mp hsome
  obtain ⟨read, hread, hmem⟩ := decodePartitions_eq hlength hhex
  obtain rfl : read = partitions := Option.some.inj (hread.symm.trans h)
  -- the bits of a digit make up the digit
  have hbits : ∀ digit < 16, 8 * (decide ((digit >>> 3) &&& 1 = 1)).toNat +
      4 * (decide ((digit >>> 2) &&& 1 = 1)).toNat + 2 * (decide ((digit >>> 1) &&& 1 = 1)).toNat +
      (decide ((digit >>> 0) &&& 1 = 1)).toNat = digit := by decide
  refine List.ext_getElem ?_ fun i hi hi' => ?_
  · rw [length_encodePartitions, List.length_map, hlength]
  · rw [length_encodePartitions] at hi
    rw [List.length_map] at hi'
    obtain ⟨-, digit, hlt, hdigit, hlower⟩ := (digitOf_cases text[i]).resolve_right
      fun hno => hno.1 (hhex _ (List.getElem_mem hi'))
    have hvalue : valueAt text i = digit := by
      rw [valueAt, List.getD_eq_getElem?_getD, List.getElem?_eq_getElem hi',
        Option.getD_some, hdigit, Option.getD_some]
    have htest : ∀ bit ≤ 3, testPartition read (partitionCount - bitsPerDigit * i - 1 - bit) =
        decide ((digit >>> (3 - bit)) &&& 1 = 1) := by
      intro bit hbit
      unfold partitionCount bitsPerDigit at *
      have hless : 256 - 4 * i - 1 - bit < partitionCount := by
        unfold partitionCount
        omega
      have hplace : 63 - (256 - 4 * i - 1 - bit) / 4 = i := by omega
      have hshift : (256 - 4 * i - 1 - bit) % 4 = 3 - bit := by omega
      rw [testPartition, dif_pos hless]
      refine decide_eq_decide.mpr ((hmem _).trans ?_)
      rw [hplace, hshift, hvalue]
    have hbelow : digitBelow read (partitionCount - bitsPerDigit * i) = digit := by
      have hfirst := htest 0 (by decide)
      rw [Nat.sub_zero] at hfirst
      rw [digitBelow_eq, hfirst, htest 1 (by decide), htest 2 (by decide), htest 3 (by decide)]
      exact hbits digit hlt
    rw [List.getElem_map, ← hlower, ← hbelow]
    simp only [encodePartitions, List.getElem_map, List.getElem_range]

/-- **A set of partitions survives the wire**: it is read back, a text is read where it is 64 digits
of either case, and one that is read says what the set is written as. -/
theorem partitions_survive :
    (∀ partitions, decodePartitions (encodePartitions partitions) = some partitions) ∧
      (∀ text, (decodePartitions text).isSome ↔
        text.length = 64 ∧ ∀ character ∈ text, IsHex character) ∧
      ∀ text partitions, decodePartitions text = some partitions →
        encodePartitions partitions = text.map toLower :=
  ⟨decodePartitions_encodePartitions, fun _ => isSome_decodePartitions_iff,
    fun _ _ => encodePartitions_of_decodePartitions⟩

end AsyncDatabase
