import AsyncDatabase.Library.Bytes

/-!
# Well-formed UTF-8

`Utf8.valid` reads a byte string a character at a time and says whether all of it is well-formed
UTF-8: no stray or missing continuation byte, no character longer than it has to be, no surrogate
and nothing above `U+10FFFF`.
-/

namespace Utf8

/-- A continuation byte. -/
def isTail (b : UInt8) : Bool := 0x80 ≤ b && b ≤ 0xBF

/-- The first two bytes of a character of three. -/
def opensThree (a b : UInt8) : Bool :=
  (a == 0xE0 && (0xA0 ≤ b && b ≤ 0xBF)) || (0xE1 ≤ a && a ≤ 0xEC && isTail b) ||
    (a == 0xED && (0x80 ≤ b && b ≤ 0x9F)) || (0xEE ≤ a && a ≤ 0xEF && isTail b)

/-- The first two bytes of a character of four. -/
def opensFour (a b : UInt8) : Bool :=
  (a == 0xF0 && (0x90 ≤ b && b ≤ 0xBF)) || (0xF1 ≤ a && a ≤ 0xF3 && isTail b) ||
    (a == 0xF4 && (0x80 ≤ b && b ≤ 0x8F))

/-- Whether a byte string is well-formed UTF-8 from end to end. -/
def valid : Bytes → Bool
  | [] => true
  | a :: s =>
    if a < 0x80 then valid s
    else match s with
      | [] => false
      | b :: s =>
        if 0xC2 ≤ a && a ≤ 0xDF then isTail b && valid s
        else match s with
          | [] => false
          | c :: s =>
            if opensThree a b then isTail c && valid s
            else match s with
              | [] => false
              | d :: s => opensFour a b && isTail c && isTail d && valid s

@[simp] theorem valid_nil : valid [] = true := rfl

theorem valid_cons_of_lt {a : UInt8} (h : a < 0x80) (s : Bytes) : valid (a :: s) = valid s := by
  rw [valid.eq_def]
  simp only [h, if_true]

/-- A string of ASCII bytes is well formed. -/
theorem valid_of_forall_lt {s : Bytes} (h : ∀ b ∈ s, b < 0x80) : valid s = true := by
  induction s with
  | nil => rfl
  | cons b s ih =>
    rw [valid_cons_of_lt (h b List.mem_cons_self)]
    exact ih fun c hc => h c (List.mem_cons_of_mem _ hc)

theorem isTail_of_lt {b : UInt8} (h : b < 0x80) : isTail b = false := by
  have hno : ¬(0x80 : UInt8) ≤ b := by
    rw [UInt8.le_iff_toNat_le]
    rw [UInt8.lt_iff_toNat_lt] at h
    omega
  rw [isTail, decide_eq_false hno, Bool.false_and]

theorem opensThree_of_lt {b : UInt8} (a : UInt8) (h : b < 0x80) : opensThree a b = false := by
  have hno : ¬(0xA0 : UInt8) ≤ b ∧ ¬(0x80 : UInt8) ≤ b := by
    rw [UInt8.le_iff_toNat_le, UInt8.le_iff_toNat_le]
    rw [UInt8.lt_iff_toNat_lt] at h
    change b.toNat < 128 at h
    change ¬160 ≤ b.toNat ∧ ¬128 ≤ b.toNat
    omega
  simp [opensThree, isTail_of_lt h, hno.1, hno.2]

theorem opensFour_of_lt {b : UInt8} (a : UInt8) (h : b < 0x80) : opensFour a b = false := by
  have hno : ¬(0x90 : UInt8) ≤ b ∧ ¬(0x80 : UInt8) ≤ b := by
    rw [UInt8.le_iff_toNat_le, UInt8.le_iff_toNat_le]
    rw [UInt8.lt_iff_toNat_lt] at h
    change b.toNat < 128 at h
    change ¬144 ≤ b.toNat ∧ ¬128 ≤ b.toNat
    omega
  simp [opensFour, isTail_of_lt h, hno.1, hno.2]

theorem valid_two {a : UInt8} (hlong : ¬a < 0x80) (htwo : (0xC2 ≤ a && a ≤ 0xDF) = true) (b : UInt8)
    (s : Bytes) : valid (a :: b :: s) = (isTail b && valid s) := by
  rw [valid.eq_def]
  simp only [hlong, htwo, if_true, if_false]

theorem valid_three {a b : UInt8} (hlong : ¬a < 0x80) (htwo : ¬(0xC2 ≤ a && a ≤ 0xDF) = true)
    (hthree : opensThree a b = true) (c : UInt8) (s : Bytes) :
    valid (a :: b :: c :: s) = (isTail c && valid s) := by
  rw [valid.eq_def]
  simp only [hlong, htwo, hthree, if_true, if_false, Bool.false_eq_true]

theorem valid_four {a b c : UInt8} (hlong : ¬a < 0x80) (htwo : ¬(0xC2 ≤ a && a ≤ 0xDF) = true)
    (hthree : ¬opensThree a b = true) (d : UInt8) (s : Bytes) :
    valid (a :: b :: c :: d :: s) = (opensFour a b && isTail c && isTail d && valid s) := by
  rw [valid.eq_def]
  simp only [hlong, htwo, hthree, if_false, Bool.false_eq_true]

/-- An ASCII byte is no part of a longer character, so text can be cut at it. -/
theorem valid_append_cons {b : UInt8} (h : b < 0x80) (s t : Bytes) :
    valid (s ++ b :: t) = (valid s && valid t) := by
  have htail := isTail_of_lt h
  induction s using valid.induct with
  | case1 => rw [List.nil_append, valid_cons_of_lt h, valid_nil, Bool.true_and]
  | case2 a s hascii ih =>
    rw [List.cons_append, valid_cons_of_lt hascii, valid_cons_of_lt hascii, ih]
  | case3 a hlong =>
    have hthree := opensThree_of_lt a h
    have hfour := opensFour_of_lt a h
    rcases t with _ | ⟨c, _ | ⟨d, t⟩⟩ <;> simp [valid, hlong, htail, hthree, hfour]
  | case4 a hlong c s htwo ih =>
    rw [List.cons_append, List.cons_append, valid_two hlong htwo, valid_two hlong htwo, ih,
      Bool.and_assoc]
  | case5 a hlong c htwo =>
    rcases t with _ | ⟨d, t⟩ <;> simp [valid, hlong, htwo, htail]
  | case6 a hlong c htwo d s hthree ih =>
    rw [List.cons_append, List.cons_append, List.cons_append, valid_three hlong htwo hthree,
      valid_three hlong htwo hthree, ih, Bool.and_assoc]
  | case7 a hlong c htwo d hthree => simp [valid, hlong, htwo, hthree, htail]
  | case8 a hlong c htwo d hthree e s ih =>
    simp only [List.cons_append]
    rw [valid_four hlong htwo hthree, valid_four hlong htwo hthree, ih, ← Bool.and_assoc]

end Utf8
