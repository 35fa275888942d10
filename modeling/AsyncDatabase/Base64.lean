import AsyncDatabase.Library.Bytes

/-!
# Base64

Bytes as text (`base64/base64.cpp`): cursors, resume keys, and the keys and values of etcd.
`decode_undoes_encode` says what comes back, and of which texts nothing does.
-/

namespace AsyncDatabase.Base64

open Bytes (ascii)

def alphabet : Bytes := ascii "ABCDEFGHIJKLMNOPQRSTUVWXYZabcdefghijklmnopqrstuvwxyz0123456789+/"

/-- The byte that fills up the last group. -/
def padding : UInt8 := 61

def character (group : ℕ) (shift : ℕ) : UInt8 := alphabet.getD (group >>> shift &&& 0x3f) 0

def encode : Bytes → Bytes
  | [] => []
  | [a] =>
    let group := a.toNat <<< 16
    [character group 18, character group 12, padding, padding]
  | [a, b] =>
    let group := a.toNat <<< 16 ||| b.toNat <<< 8
    [character group 18, character group 12, character group 6, padding]
  | a :: b :: c :: text =>
    let group := a.toNat <<< 16 ||| b.toNat <<< 8 ||| c.toNat
    character group 18 :: character group 12 :: character group 6 :: character
      group 0 :: encode text

/-- One turn of the loop of `decode`: an accumulator of 32 bits, how many of them are not given out
yet, and the text so far. -/
def decodeFrom : Bytes → ℕ → ℕ → Bytes → Option Bytes
  | [], _, _, text => some text
  | character :: encoded, group, bits, text =>
    if character = padding then some text
    else if character ∉ alphabet then none
    else
      let group := (group <<< 6 ||| alphabet.idxOf character) % 2 ^ 32
      let bits := bits + 6
      if 8 ≤ bits then
        decodeFrom encoded group (bits - 8) (text ++ [UInt8.ofNat (group >>> (bits - 8) &&& 0xff)])
      else decodeFrom encoded group bits text

def decode (encoded : Bytes) : Option Bytes := decodeFrom encoded 0 0 []

/-! ### Decoding what was encoded -/

/-- The character of a number of six bits. -/
def digit (n : ℕ) : UInt8 := alphabet.getD n 0

theorem character_eq (group shift : ℕ) :
    character group shift = digit (group / 2 ^ shift % 64) := by
  rw [character, digit, Nat.shiftRight_eq_div_pow, show (0x3f : ℕ) = 2 ^ 6 - 1 by norm_num,
    Nat.and_two_pow_sub_one_eq_mod]

theorem digit_spec {n : ℕ} (h : n < 64) :
    digit n ≠ padding ∧ digit n ∈ alphabet ∧ alphabet.idxOf (digit n) = n := by
  have hpadding : ∀ n < 64, digit n ≠ padding := by decide +kernel
  have hmem : ∀ n < 64, digit n ∈ alphabet := by decide +kernel
  have hindex : ∀ n < 64, alphabet.idxOf (digit n) = n := by decide +kernel
  exact ⟨hpadding n h, hmem n h, hindex n h⟩

/-- A turn of the loop over the character of a number. -/
theorem decodeFrom_digit {n : ℕ} (h : n < 64) (encoded : Bytes) (group bits : ℕ) (text : Bytes) :
    decodeFrom (digit n :: encoded) group bits text =
      if 2 ≤ bits then
        decodeFrom encoded ((group * 64 + n) % 2 ^ 32) (bits - 2)
          (text ++ [UInt8.ofNat ((group * 64 + n) % 2 ^ 32 / 2 ^ (bits - 2) % 256)])
      else decodeFrom encoded ((group * 64 + n) % 2 ^ 32) (bits + 6) text := by
  obtain ⟨hpadding, hmem, hindex⟩ := digit_spec h
  have hshift : group <<< 6 ||| n = group * 64 + n := by
    rw [← Nat.shiftLeft_add_eq_or_of_lt (by omega), Nat.shiftLeft_eq]
  have hbyte : ∀ m k : ℕ, m >>> k &&& 0xff = m / 2 ^ k % 256 := by
    intro m k
    rw [Nat.shiftRight_eq_div_pow, show (0xff : ℕ) = 2 ^ 8 - 1 by norm_num,
      Nat.and_two_pow_sub_one_eq_mod]
  rw [decodeFrom, if_neg hpadding, if_neg (not_not.mpr hmem), hindex, hshift]
  dsimp only
  by_cases hbits : 2 ≤ bits
  · rw [if_pos (by omega), if_pos hbits, hbyte, show bits + 6 - 8 = bits - 2 by omega]
  · rw [if_neg (by omega), if_neg hbits]

theorem decodeFrom_padding (encoded : Bytes) (group bits : ℕ) (text : Bytes) :
    decodeFrom (padding :: encoded) group bits text = some text :=
  if_pos (Eq.refl padding)

/-- The bits of three bytes as one number. -/
theorem group_eq (a b c : UInt8) :
    a.toNat <<< 16 ||| b.toNat <<< 8 ||| c.toNat = a.toNat * 65536 + b.toNat * 256 + c.toNat := by
  have hb := b.toNat_lt
  have hc := c.toNat_lt
  have hlow : b.toNat <<< 8 < 2 ^ 16 := by
    rw [Nat.shiftLeft_eq]
    omega
  rw [← Nat.shiftLeft_add_eq_or_of_lt hlow, Nat.shiftLeft_eq, Nat.shiftLeft_eq]
  have hsum : a.toNat * 2 ^ 16 + b.toNat * 2 ^ 8 = (a.toNat * 256 + b.toNat) <<< 8 := by
    rw [Nat.shiftLeft_eq]
    omega
  rw [hsum, ← Nat.shiftLeft_add_eq_or_of_lt (by omega), Nat.shiftLeft_eq]
  ring

theorem byte_eq {n : ℕ} {b : UInt8} (h : n % 256 = b.toNat) : UInt8.ofNat n = b := by
  rw [← UInt8.toNat_inj, UInt8.toNat_ofNat']
  exact h

/-- **Decoding undoes encoding**, from whatever the accumulator holds of what came before. -/
theorem decodeFrom_encode (bytes : Bytes) (group : ℕ) (text : Bytes) :
    decodeFrom (encode bytes) group 0 text = some (text ++ bytes) := by
  induction bytes using encode.induct generalizing group text with
  | case1 => simp [encode, decodeFrom]
  | case2 a =>
    have ha := a.toNat_lt
    rw [encode]
    -- a group of one byte: two digits, and two signs of padding
    have hgroup : a.toNat <<< 16 = a.toNat * 65536 := by rw [Nat.shiftLeft_eq]
    rw [hgroup, character_eq, character_eq, decodeFrom_digit (Nat.mod_lt _ (by norm_num)),
      if_neg (by norm_num), decodeFrom_digit (Nat.mod_lt _ (by norm_num)), if_pos (by norm_num),
      decodeFrom_padding]
    rw [byte_eq (b := a) (by omega)]
  | case3 a b =>
    have ha := a.toNat_lt
    have hb := b.toNat_lt
    rw [encode]
    -- a group of two bytes: three digits, and one sign of padding
    have hgroup : a.toNat <<< 16 ||| b.toNat <<< 8 = a.toNat * 65536 + b.toNat * 256 := by
      have hzero := group_eq a b 0
      simpa using hzero
    rw [hgroup, character_eq, character_eq, character_eq,
      decodeFrom_digit (Nat.mod_lt _ (by norm_num)),
      if_neg (by norm_num), decodeFrom_digit (Nat.mod_lt _ (by norm_num)), if_pos (by norm_num),
      decodeFrom_digit (Nat.mod_lt _ (by norm_num)), if_pos (by norm_num), decodeFrom_padding]
    rw [List.append_assoc, List.singleton_append]
    rw [byte_eq (b := a) (by omega), byte_eq (b := b) (by omega)]
  | case4 a b c bytes ih =>
    have ha := a.toNat_lt
    have hb := b.toNat_lt
    have hc := c.toNat_lt
    -- a whole group, which the rest of the text follows
    rw [encode, group_eq, character_eq, character_eq, character_eq, character_eq,
      decodeFrom_digit (Nat.mod_lt _ (by norm_num)), if_neg (by norm_num),
      decodeFrom_digit (Nat.mod_lt _ (by norm_num)), if_pos (by norm_num),
      decodeFrom_digit (Nat.mod_lt _ (by norm_num)), if_pos (by norm_num),
      decodeFrom_digit (Nat.mod_lt _ (by norm_num)), if_pos (by norm_num), ih]
    rw [List.append_assoc, List.append_assoc, List.append_assoc, List.singleton_append,
      List.singleton_append, List.singleton_append]
    rw [byte_eq (b := a) (by omega), byte_eq (b := b) (by omega), byte_eq (b := c) (by omega)]

theorem decode_encode (bytes : Bytes) : decode (encode bytes) = some bytes :=
  decodeFrom_encode bytes 0 []

/-- Decoding answers nothing exactly where a character that is not of the alphabet comes before the
padding, whatever the accumulator holds. -/
theorem decodeFrom_eq_none_iff (encoded : Bytes) (group bits : ℕ) (text : Bytes) :
    decodeFrom encoded group bits text = none ↔
      ∃ character ∈ encoded.takeWhile (· ≠ padding), character ∉ alphabet := by
  induction encoded generalizing group bits text with
  | nil => simp [decodeFrom]
  | cons character encoded ih =>
    rw [decodeFrom]
    by_cases hpadding : character = padding
    · -- nothing is read behind an equals sign
      rw [if_pos hpadding, List.takeWhile_cons_of_neg (by simpa using hpadding)]
      simp
    · rw [if_neg hpadding, List.takeWhile_cons_of_pos (by simpa using hpadding),
        List.exists_mem_cons_iff]
      by_cases halphabet : character ∈ alphabet
      · rw [if_neg (not_not.mpr halphabet)]
        dsimp only
        split_ifs
        · rw [ih]
          exact (or_iff_right (not_not.mpr halphabet)).symm
        · rw [ih]
          exact (or_iff_right (not_not.mpr halphabet)).symm
      · rw [if_pos halphabet]
        exact iff_of_true rfl (Or.inl halphabet)

/-- **Decoding undoes encoding**, for every string of bytes, and answers nothing for just those
texts that have a character outside the alphabet before their first equals sign. -/
theorem decode_undoes_encode :
    (∀ bytes, decode (encode bytes) = some bytes) ∧
      ∀ encoded, decode encoded = none ↔
        ∃ character ∈ encoded.takeWhile (· ≠ padding), character ∉ alphabet :=
  ⟨decode_encode, fun encoded => decodeFrom_eq_none_iff encoded 0 0 []⟩

/-- Ten characters are more bits than the accumulator has, and nothing is read behind the
padding. -/
example : decode (ascii "YXN5bmNkYg==") = some (ascii "asyncdb") ∧
    decode (ascii "YQ=!") = some (ascii "a") ∧ decode (ascii "not base 64") = none := by
  decide +kernel

/-- What is encoded is ASCII. -/
theorem lt_of_mem_encode {bytes : Bytes} {b : UInt8} (h : b ∈ encode bytes) : b < 0x80 := by
  have hcharacter : ∀ group shift, character group shift < 0x80 := by
    intro group shift
    have hall : ∀ n < 64, digit n < 0x80 := by decide +kernel
    rw [character_eq]
    exact hall _ (Nat.mod_lt _ (by norm_num))
  have hpadding : padding < 0x80 := by decide
  induction bytes using encode.induct with
  | case1 => exact absurd h List.not_mem_nil
  | case2 a | case3 a c =>
    simp only [encode, List.mem_cons, List.not_mem_nil, or_false] at h
    rcases h with rfl | rfl | rfl | rfl <;> first | exact hcharacter _ _ | exact hpadding
  | case4 a c d text ih =>
    simp only [encode, List.mem_cons] at h
    rcases h with rfl | rfl | rfl | rfl | h
    · exact hcharacter _ _
    · exact hcharacter _ _
    · exact hcharacter _ _
    · exact hcharacter _ _
    · exact ih h

end AsyncDatabase.Base64
