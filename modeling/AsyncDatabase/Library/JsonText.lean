import AsyncDatabase.Library.Json

/-!
# Compact JSON text

A `JsonCodec` that runs: `JsonText.serialize` writes a document without white space, escaping only
what has to be, and `JsonText.parse` reads such a text back. It is the codec a concrete run is
evaluated with; what is proved of the rest is proved for every codec.

The parser recurses on fuel, and `Json.size` is fuel enough (`parseValue_serialize`): each of the
three readers is given one more unit than the part of the document it still has to read.
-/

namespace JsonText

open Bytes Json

/-! ### Writing -/

def hexDigit (n : ℕ) : UInt8 := UInt8.ofNat (if n < 10 then 48 + n else 87 + n)

/-- The letter a control byte is escaped with, for the five that have one. -/
def shortEscape (b : UInt8) : Option UInt8 :=
  if b = 8 then some 98
  else if b = 9 then some 116
  else if b = 10 then some 110
  else if b = 12 then some 102
  else if b = 13 then some 114
  else none

def escapeByte (b : UInt8) : Bytes :=
  if b = 34 ∨ b = 92 then [92, b]
  else match shortEscape b with
    | some letter => [92, letter]
    | none =>
      if b < 32 then [92, 117, 48, 48, hexDigit (b.toNat / 16), hexDigit (b.toNat % 16)] else [b]

/-- A string in quotes. Every byte that does not have to be escaped is written as it is. -/
def quoted (s : Bytes) : Bytes := 34 :: (s.flatMap escapeByte ++ [34])

mutual

def serialize : Json → Bytes
  | .null => [110, 117, 108, 108]
  | .bool true => [116, 114, 117, 101]
  | .bool false => [102, 97, 108, 115, 101]
  | .int64 n => if n < 0 then 45 :: decimal n.natAbs else decimal n.natAbs
  | .uint64 n => decimal n
  | .double => [48]
  | .string s => quoted s
  | .array [] => [91, 93]
  | .array (v :: vs) => 91 :: (serialize v ++ serializeItems vs)
  | .object [] => [123, 125]
  | .object ((name, v) :: ms) => 123 :: (quoted name ++ 58 :: (serialize v ++ serializeMembers ms))

/-- The items of an array after its first, up to its end. -/
def serializeItems : List Json → Bytes
  | [] => [93]
  | v :: vs => 44 :: (serialize v ++ serializeItems vs)

/-- The members of an object after its first, up to its end. -/
def serializeMembers : List (Bytes × Json) → Bytes
  | [] => [125]
  | (name, v) :: ms => 44 :: (quoted name ++ 58 :: (serialize v ++ serializeMembers ms))

end

/-! ### Reading -/

def hexValue (b : UInt8) : Option ℕ :=
  if 48 ≤ b ∧ b ≤ 57 then some (b.toNat - 48)
  else if 97 ≤ b ∧ b ≤ 102 then some (b.toNat - 87)
  else none

/-- What an escape of one letter stands for. -/
def unescape (letter : UInt8) : Option UInt8 :=
  if letter = 34 ∨ letter = 92 ∨ letter = 47 then some letter
  else if letter = 98 then some 8
  else if letter = 116 then some 9
  else if letter = 110 then some 10
  else if letter = 102 then some 12
  else if letter = 114 then some 13
  else none

/-- The rest of a string after its opening quote, and what follows the closing one. -/
def readString : Bytes → Option (Bytes × Bytes)
  | [] => none
  | b :: s =>
    if b = 34 then some ([], s)
    else if b = 92 then
      match s with
      | [] => none
      | letter :: s =>
        if letter = 117 then
          match s with
          | z :: y :: high :: low :: s =>
            match hexValue high, hexValue low with
            | some h, some l =>
              if z = 48 ∧ y = 48 then
                (readString s).map fun r => (UInt8.ofNat (16 * h + l) :: r.1, r.2)
              else none
            | _, _ => none
          | _ => none
        else match unescape letter with
          | some c => (readString s).map fun r => (c :: r.1, r.2)
          | none => none
    else if b < 32 then none
    else (readString s).map fun r => (b :: r.1, r.2)

/-- A string that is well-formed UTF-8, and what follows it. -/
def readText : Bytes → Option (Bytes × Bytes)
  | 34 :: s => (readString s).filter fun r => Utf8.valid r.1
  | _ => none

/-- The number of a parser's kind: signed where it fits, then unsigned. -/
def natural (n : ℕ) : Json :=
  if n < 2 ^ 63 then .int64 n else if n < 2 ^ 64 then .uint64 n else .double

def negative (n : ℕ) : Json := if n ≤ 2 ^ 63 then .int64 (-n) else .double

def readNatural (s : Bytes) : Option (ℕ × Bytes) :=
  if s.takeWhile isDigit = [] then none
  else some (valueOf (s.takeWhile isDigit), s.dropWhile isDigit)

mutual

def parseValue : ℕ → Bytes → Option (Json × Bytes)
  | 0, _ => none
  | fuel + 1, s =>
    match s with
    | 110 :: 117 :: 108 :: 108 :: s => some (.null, s)
    | 116 :: 114 :: 117 :: 101 :: s => some (.bool true, s)
    | 102 :: 97 :: 108 :: 115 :: 101 :: s => some (.bool false, s)
    | 45 :: s => (readNatural s).map fun r => (negative r.1, r.2)
    | 34 :: s => (readText (34 :: s)).map fun r => (.string r.1, r.2)
    | 91 :: 93 :: s => some (.array [], s)
    | 91 :: s =>
      (parseValue fuel s).bind fun r =>
        (parseItems fuel r.2).map fun rs => (.array (r.1 :: rs.1), rs.2)
    | 123 :: 125 :: s => some (.object [], s)
    | 123 :: s => (parseMember fuel s).bind fun r =>
        (parseMembers fuel r.2).map fun rs => (.object (r.1 :: rs.1), rs.2)
    | s => (readNatural s).map fun r => (natural r.1, r.2)

def parseItems : ℕ → Bytes → Option (List Json × Bytes)
  | 0, _ => none
  | fuel + 1, s =>
    match s with
    | 93 :: s => some ([], s)
    | 44 :: s =>
      (parseValue fuel s).bind fun r => (parseItems fuel r.2).map fun rs => (r.1 :: rs.1, rs.2)
    | _ => none

def parseMember : ℕ → Bytes → Option ((Bytes × Json) × Bytes)
  | 0, _ => none
  | fuel + 1, s =>
    (readText s).bind fun r =>
      match r.2 with
      | 58 :: s => (parseValue fuel s).map fun v => ((r.1, v.1), v.2)
      | _ => none

def parseMembers : ℕ → Bytes → Option (List (Bytes × Json) × Bytes)
  | 0, _ => none
  | fuel + 1, s =>
    match s with
    | 125 :: s => some ([], s)
    | 44 :: s =>
      (parseMember fuel s).bind fun r => (parseMembers fuel r.2).map fun rs => (r.1 :: rs.1, rs.2)
    | _ => none

end

/-- A text that is one document from end to end. -/
def parse (text : Bytes) : Option Json :=
  (parseValue (text.length + 1) text).bind fun r => if r.2 = [] then some r.1 else none

/-! ### Strings -/

theorem hexValue_hexDigit {n : ℕ} (h : n < 16) : hexValue (hexDigit n) = some n := by
  interval_cases n <;> rfl

theorem unescape_shortEscape {b letter : UInt8} (h : shortEscape b = some letter) :
    letter ≠ 117 ∧ unescape letter = some b := by
  unfold shortEscape at h
  split_ifs at h with h1 h2 h3 h4 h5
  all_goals
    obtain rfl := Option.some.inj h
    subst b
    decide

/-- Reading one escaped byte gives the byte back. -/
theorem readString_escapeByte (b : UInt8) (t : Bytes) :
    readString (escapeByte b ++ t) = (readString t).map fun r => (b :: r.1, r.2) := by
  unfold escapeByte
  by_cases hq : b = 34 ∨ b = 92
  · -- a quote or a backslash is escaped as itself
    rw [if_pos hq]
    rcases hq with rfl | rfl <;> (rw [readString.eq_def]; rfl)
  · rw [if_neg hq]
    rw [not_or] at hq
    cases hl : shortEscape b with
    | some letter =>
      obtain ⟨hne, hun⟩ := unescape_shortEscape hl
      rw [readString.eq_def]
      simp only [List.cons_append, List.nil_append, if_neg (show (92 : UInt8) ≠ 34 by decide),
        if_true, if_neg hne, hun]
    | none =>
      by_cases hb : b < 32
      · have hlt : b.toNat < 32 := by simpa [UInt8.lt_iff_toNat_lt] using hb
        have hback : UInt8.ofNat (16 * (b.toNat / 16) + b.toNat % 16) = b := by
          rw [Nat.div_add_mod, UInt8.ofNat_toNat]
        rw [readString.eq_def]
        simp only [if_pos hb]
        simp only [List.cons_append, List.nil_append, if_neg (show (92 : UInt8) ≠ 34 by decide),
          if_true, hexValue_hexDigit (show b.toNat / 16 < 16 by omega),
          hexValue_hexDigit (show b.toNat % 16 < 16 by omega), and_self, hback]
      · rw [readString.eq_def]
        simp only [if_neg hb]
        simp only [List.cons_append, List.nil_append, if_neg hq.1, if_neg hq.2, if_neg hb]

theorem readString_quoted (s rest : Bytes) :
    readString (s.flatMap escapeByte ++ 34 :: rest) = some (s, rest) := by
  induction s with
  | nil => rw [readString.eq_def]; rfl
  | cons b s ih =>
    rw [List.flatMap_cons, List.append_assoc, readString_escapeByte, ih]
    rfl

theorem readText_quoted (s rest : Bytes) :
    readText (quoted s ++ rest) = if Utf8.valid s then some (s, rest) else none := by
  rw [quoted, List.cons_append, List.append_assoc, List.singleton_append, readText,
    readString_quoted]
  cases h : Utf8.valid s <;> simp [Option.filter, h]

/-! ### Numbers -/

/-- What may follow a number: nothing, or a byte that is no digit of it. -/
def Ends (rest : Bytes) : Prop := rest.takeWhile isDigit = []

theorem readNatural_decimal (n : ℕ) {rest : Bytes} (h : Ends rest) :
    readNatural (decimal n ++ rest) = some (n, rest) := by
  have hall : ∀ b ∈ decimal n, isDigit b = true := fun b hb => isDigit_of_mem_decimal hb
  have htake : (decimal n ++ rest).takeWhile isDigit = decimal n := by
    rw [List.takeWhile_append_of_pos hall, h, List.append_nil]
  have hdrop : (decimal n ++ rest).dropWhile isDigit = rest := by
    rw [List.dropWhile_append_of_pos hall]
    have := List.takeWhile_append_dropWhile (p := isDigit) (l := rest)
    rwa [h, List.nil_append] at this
  rw [readNatural, htake, hdrop, if_neg (decimal_ne_nil n), valueOf_decimal]

/-- A value that starts with a digit is a number. -/
theorem parseValue_digit {b : UInt8} (hb : isDigit b = true) (fuel : ℕ) (s : Bytes) :
    parseValue (fuel + 1) (b :: s) = (readNatural (b :: s)).map fun r => (natural r.1, r.2) := by
  rw [parseValue]
  all_goals
    intro _ h
    obtain ⟨rfl, -⟩ := List.cons_eq_cons.mp h
    exact absurd hb (by decide)

theorem parseValue_decimal (n fuel : ℕ) {rest : Bytes} (h : Ends rest) :
    parseValue (fuel + 1) (decimal n ++ rest) = some (natural n, rest) := by
  obtain ⟨b, s, hbs⟩ := List.exists_cons_of_ne_nil (decimal_ne_nil n)
  have hb : isDigit b = true := isDigit_of_mem_decimal (n := n) (by rw [hbs]; simp)
  have hread := readNatural_decimal n h
  rw [hbs, List.cons_append] at hread ⊢
  rw [parseValue_digit hb, hread]
  rfl

/-! ### Documents -/

mutual

/-- Fuel enough to read a document back. -/
def size : Json → ℕ
  | .array (v :: vs) => 1 + size v + sizeItems vs
  | .object ((_, v) :: ms) => 2 + size v + sizeMembers ms
  | _ => 1

def sizeItems : List Json → ℕ
  | [] => 1
  | v :: vs => 1 + size v + sizeItems vs

def sizeMembers : List (Bytes × Json) → ℕ
  | [] => 1
  | (_, v) :: ms => 2 + size v + sizeMembers ms

end

theorem length_decimal_pos (n : ℕ) : 1 ≤ (decimal n).length :=
  List.length_pos_iff.mpr (decimal_ne_nil n)

theorem two_le_length_quoted (s : Bytes) : 2 ≤ (quoted s).length := by
  rw [quoted, List.length_cons, List.length_append, List.length_singleton]
  omega

mutual

/-- A text is long enough to be the fuel it is read with. -/
theorem size_le_length (v : Json) : size v ≤ (serialize v).length := by
  match v with
  | .null | .bool true | .bool false | .double | .array [] | .object [] =>
    simp [size, serialize]
  | .int64 n =>
    have := length_decimal_pos n.natAbs
    rw [size, serialize]
    split_ifs
    · rw [List.length_cons]; omega
    · exact this
    all_goals simp
  | .uint64 n => rw [serialize]; exact length_decimal_pos n
  | .string s =>
    have := two_le_length_quoted s
    rw [size, serialize]
    · omega
    all_goals simp
  | .array (v :: vs) =>
    have hv := size_le_length v
    have hvs := sizeItems_le_length vs
    rw [size, serialize, List.length_cons, List.length_append]
    omega
  | .object ((name, v) :: ms) =>
    have hn := two_le_length_quoted name
    have hv := size_le_length v
    have hms := sizeMembers_le_length ms
    rw [size, serialize, List.length_cons, List.length_append, List.length_cons,
      List.length_append]
    omega

theorem sizeItems_le_length (vs : List Json) : sizeItems vs ≤ (serializeItems vs).length := by
  match vs with
  | [] => simp [sizeItems, serializeItems]
  | v :: vs =>
    have hv := size_le_length v
    have hvs := sizeItems_le_length vs
    rw [sizeItems, serializeItems, List.length_cons, List.length_append]
    omega

theorem sizeMembers_le_length (ms : List (Bytes × Json)) :
    sizeMembers ms ≤ (serializeMembers ms).length := by
  match ms with
  | [] => simp [sizeMembers, serializeMembers]
  | (name, v) :: ms =>
    have hn := two_le_length_quoted name
    have hv := size_le_length v
    have hms := sizeMembers_le_length ms
    rw [sizeMembers, serializeMembers, List.length_cons, List.length_append, List.length_cons,
      List.length_append]
    omega

end

theorem ends_serializeItems (vs : List Json) (rest : Bytes) : Ends (serializeItems vs ++ rest) := by
  cases vs <;> rfl

theorem ends_serializeMembers (ms : List (Bytes × Json)) (rest : Bytes) :
    Ends (serializeMembers ms ++ rest) := by
  rcases ms with _ | ⟨⟨name, v⟩, ms⟩ <;> rfl

/-- No document starts as the end of an array does. -/
theorem head?_serialize_ne (v : Json) (rest : Bytes) :
    (serialize v ++ rest).head? ≠ some 93 := by
  have hdecimal : ∀ n, (decimal n ++ rest).head? ≠ some 93 := by
    intro n h
    obtain ⟨b, s, hbs⟩ := List.exists_cons_of_ne_nil (decimal_ne_nil n)
    rw [hbs, List.cons_append, List.head?_cons] at h
    have hb : isDigit b = true := isDigit_of_mem_decimal (n := n) (by rw [hbs]; simp)
    rw [Option.some.inj h] at hb
    exact absurd hb (by decide)
  match v with
  | .null | .bool true | .bool false | .double | .array [] | .array (_ :: _) | .object []
  | .object ((_, _) :: _) => simp [serialize]
  | .string s => simp [serialize, quoted]
  | .uint64 n => rw [serialize]; exact hdecimal n
  | .int64 n =>
    rw [serialize]
    split_ifs
    · simp
    · exact hdecimal _

theorem parseValue_array {s : Bytes} (h : s.head? ≠ some 93) (fuel : ℕ) :
    parseValue (fuel + 1) (91 :: s) = (parseValue fuel s).bind fun r =>
      (parseItems fuel r.2).map fun rs => (.array (r.1 :: rs.1), rs.2) := by
  rw [parseValue]
  intro t ht
  rw [ht] at h
  exact h rfl

theorem parseValue_object (name : Bytes) (v : Json) (ms : List (Bytes × Json)) (rest : Bytes)
    (fuel : ℕ) :
    parseValue (fuel + 1) (serialize (.object ((name, v) :: ms)) ++ rest) =
      (parseMember fuel
        (quoted name ++ 58 :: (serialize v ++ (serializeMembers ms ++ rest)))).bind
        fun r => (parseMembers fuel r.2).map fun rs => (.object (r.1 :: rs.1), rs.2) := by
  have hquoted : quoted name = 34 :: (name.flatMap escapeByte ++ [34]) := rfl
  rw [serialize, List.cons_append, List.append_assoc, List.cons_append, List.append_assoc,
    hquoted, List.cons_append, parseValue]
  intro t ht
  exact absurd (List.cons_eq_cons.mp ht).1 (by decide)

theorem parseValue_int64 {n : ℤ} (hreg : (Json.int64 n).regular) {rest : Bytes} (hend : Ends rest)
    (fuel : ℕ) :
    parseValue (fuel + 1) (serialize (.int64 n) ++ rest) = some (.int64 n, rest) := by
  rw [regular] at hreg
  rw [serialize]
  split_ifs with hn
  · have hneg : negative n.natAbs = .int64 n := by
      rw [negative, if_pos (by omega)]
      congr 1
      omega
    rw [List.cons_append, parseValue, readNatural_decimal _ hend]
    simp [hneg]
  · have hpos : natural n.natAbs = .int64 n := by
      rw [natural, if_pos (by omega)]
      congr 1
      omega
    rw [parseValue_decimal _ _ hend, hpos]

theorem parseValue_uint64 {n : ℕ} (hreg : (Json.uint64 n).regular) {rest : Bytes}
    (hend : Ends rest) (fuel : ℕ) :
    parseValue (fuel + 1) (serialize (.uint64 n) ++ rest) = some (.uint64 n, rest) := by
  rw [regular] at hreg
  have hn : natural n = .uint64 n := by
    rw [natural, if_neg (by omega), if_pos hreg.2]
  rw [serialize, parseValue_decimal _ _ hend, hn]

theorem parseValue_string (s rest : Bytes) (fuel : ℕ) :
    parseValue (fuel + 1) (serialize (.string s) ++ rest) =
      if Utf8.valid s then some (.string s, rest) else none := by
  have hquoted : quoted s ++ rest = 34 :: (s.flatMap escapeByte ++ [34] ++ rest) := by
    rw [quoted, List.cons_append]
  rw [serialize, hquoted, parseValue, ← hquoted, readText_quoted]
  cases Utf8.valid s <;> rfl

/-- Two readers that each read back what was written for them read back both, one after the
other. -/
theorem bind_read {α β γ : Type} {first : Option (α × Bytes)} {next : Bytes → Option (β × Bytes)}
    {a : α} {b : β} {s rest : Bytes} {p q : Bool} (f : α → β → γ)
    (hfirst : first = if p then some (a, s) else none)
    (hnext : next s = if q then some (b, rest) else none) :
    (first.bind fun r => (next r.2).map fun rs => (f r.1 rs.1, rs.2)) =
      if p && q then some (f a b, rest) else none := by
  rw [hfirst]
  cases p with
  | false => rfl
  | true =>
    simp only [if_true, Option.bind_some, Bool.true_and]
    rw [hnext]
    cases q <;> rfl

theorem size_pos (v : Json) : 0 < size v := by
  unfold size
  split <;> omega

/-- **Reading undoes writing**, on a value, on the items after an array's first and on the members
after an object's first. A string that is not well-formed UTF-8 makes each of them fail. -/
theorem parse_serialize_parts (fuel : ℕ) :
    (∀ (v : Json) (rest : Bytes), v.regular → size v ≤ fuel → Ends rest →
      parseValue fuel (serialize v ++ rest) = if v.utf8 then some (v, rest) else none) ∧
    (∀ (vs : List Json) (rest : Bytes), regularItems vs → sizeItems vs ≤ fuel →
      parseItems fuel (serializeItems vs ++ rest) =
        if utf8Items vs then some (vs, rest) else none) ∧
    (∀ (name : Bytes) (v : Json) (rest : Bytes), v.regular → 1 + size v ≤ fuel → Ends rest →
      parseMember fuel (quoted name ++ 58 :: (serialize v ++ rest)) =
        if Utf8.valid name && v.utf8 then some ((name, v), rest) else none) ∧
    (∀ (ms : List (Bytes × Json)) (rest : Bytes), regularMembers ms → sizeMembers ms ≤ fuel →
      parseMembers fuel (serializeMembers ms ++ rest) =
        if utf8Members ms then some (ms, rest) else none) := by
  induction fuel with
  | zero =>
    -- there is nothing that takes no fuel
    refine ⟨fun v rest _ h => ?_, fun vs rest _ h => ?_, fun name v rest _ h => by omega,
      fun ms rest _ h => ?_⟩
    · have hpos := size_pos v
      omega
    · cases vs <;> (rw [sizeItems] at h; omega)
    · rcases ms with _ | ⟨⟨name, v⟩, ms⟩ <;> (rw [sizeMembers] at h; omega)
  | succ fuel ih =>
    obtain ⟨ihv, ihs, ihm, ihms⟩ := ih
    refine ⟨fun v rest hreg hsize hend => ?_, fun vs rest hreg hsize => ?_,
      fun name v rest hreg hsize hend => ?_, fun ms rest hreg hsize => ?_⟩
    · match v with
      | .null | .bool true | .bool false => simp [serialize, parseValue, utf8]
      | .double => exact absurd hreg (by simp [regular])
      | .int64 n =>
        rw [parseValue_int64 hreg hend]
        simp [utf8]
      | .uint64 n =>
        rw [parseValue_uint64 hreg hend]
        simp [utf8]
      | .string s => rw [parseValue_string, utf8]
      | .array [] => simp [serialize, parseValue, utf8, utf8Items]
      | .array (v :: vs) =>
        rw [regular, regularItems] at hreg
        rw [size] at hsize
        rw [serialize, List.cons_append, List.append_assoc,
          parseValue_array (head?_serialize_ne v _), utf8, utf8Items]
        exact bind_read (fun a b => array (a :: b))
          (ihv v _ hreg.1 (by omega) (ends_serializeItems vs rest)) (ihs vs rest hreg.2 (by omega))
      | .object [] => simp [serialize, parseValue, utf8, utf8Members]
      | .object ((name, v) :: ms) =>
        rw [regular, regularMembers] at hreg
        rw [size] at hsize
        rw [parseValue_object, utf8, utf8Members]
        exact bind_read (fun a b => object (a :: b))
          (ihm name v _ hreg.2.1 (by omega) (ends_serializeMembers ms rest))
          (ihms ms rest hreg.2.2 (by omega))
    · cases vs with
      | nil => simp [serializeItems, parseItems, utf8Items]
      | cons v vs =>
        rw [regularItems] at hreg
        rw [sizeItems] at hsize
        rw [serializeItems, List.cons_append, List.append_assoc, parseItems, utf8Items]
        exact bind_read List.cons (ihv v _ hreg.1 (by omega) (ends_serializeItems vs rest))
          (ihs vs rest hreg.2 (by omega))
    · rw [parseMember, readText_quoted]
      cases Utf8.valid name with
      | false => rfl
      | true =>
        simp only [if_true, Option.bind_some, Bool.true_and]
        rw [ihv v rest hreg (by omega) hend]
        cases v.utf8 <;> rfl
    · rcases ms with _ | ⟨⟨name, v⟩, ms⟩
      · simp [serializeMembers, parseMembers, utf8Members]
      · rw [regularMembers] at hreg
        rw [sizeMembers] at hsize
        rw [serializeMembers, List.cons_append, List.append_assoc, List.cons_append,
          List.append_assoc, parseMembers, utf8Members]
        exact bind_read List.cons (ihm name v _ hreg.1 (by omega) (ends_serializeMembers ms rest))
          (ihms ms rest hreg.2 (by omega))

theorem valid_of_readText {s t rest : Bytes} (h : readText s = some (t, rest)) :
    Utf8.valid t = true := by
  unfold readText at h
  split at h
  · exact (Option.filter_eq_some_iff.mp h).2
  · cases h

theorem utf8_natural (n : ℕ) : (natural n).utf8 = true := by
  unfold natural
  split_ifs <;> simp [utf8]

theorem utf8_negative (n : ℕ) : (negative n).utf8 = true := by
  unfold negative
  split_ifs <;> simp [utf8]

/-- What the readers give back holds well-formed UTF-8 and nothing else. -/
theorem utf8_of_parse_parts (fuel : ℕ) :
    (∀ {s rest : Bytes} {v : Json}, parseValue fuel s = some (v, rest) → v.utf8 = true) ∧
    (∀ {s rest : Bytes} {vs : List Json},
      parseItems fuel s = some (vs, rest) → utf8Items vs = true) ∧
    (∀ {s rest : Bytes} {m : Bytes × Json},
      parseMember fuel s = some (m, rest) → (Utf8.valid m.1 && m.2.utf8) = true) ∧
    (∀ {s rest : Bytes} {ms : List (Bytes × Json)},
      parseMembers fuel s = some (ms, rest) → utf8Members ms = true) := by
  induction fuel with
  | zero =>
    refine ⟨fun h => ?_, fun h => ?_, fun h => ?_, fun h => ?_⟩
    · rw [parseValue] at h; cases h
    · rw [parseItems] at h; cases h
    · rw [parseMember] at h; cases h
    · rw [parseMembers] at h; cases h
  | succ fuel ih =>
    obtain ⟨ihv, ihs, ihm, ihms⟩ := ih
    refine ⟨fun {s rest v} h => ?_, fun {s rest vs} h => ?_, fun {s rest m} h => ?_,
      fun {s rest ms} h => ?_⟩
    · unfold parseValue at h
      split at h
      · obtain ⟨rfl, -⟩ := Prod.mk.inj (Option.some.inj h); simp [utf8]
      · obtain ⟨rfl, -⟩ := Prod.mk.inj (Option.some.inj h); simp [utf8]
      · obtain ⟨rfl, -⟩ := Prod.mk.inj (Option.some.inj h); simp [utf8]
      · obtain ⟨r, -, hr⟩ := Option.map_eq_some_iff.mp h
        obtain ⟨rfl, -⟩ := Prod.mk.inj hr
        exact utf8_negative _
      · obtain ⟨r, hread, hr⟩ := Option.map_eq_some_iff.mp h
        obtain ⟨rfl, -⟩ := Prod.mk.inj hr
        rw [utf8]
        exact valid_of_readText hread
      · obtain ⟨rfl, -⟩ := Prod.mk.inj (Option.some.inj h); simp [utf8, utf8Items]
      · obtain ⟨r, hv, h⟩ := Option.bind_eq_some_iff.mp h
        obtain ⟨rs, hvs, hr⟩ := Option.map_eq_some_iff.mp h
        obtain ⟨rfl, -⟩ := Prod.mk.inj hr
        rw [utf8, utf8Items, ihv hv, ihs hvs, Bool.and_self]
      · obtain ⟨rfl, -⟩ := Prod.mk.inj (Option.some.inj h); simp [utf8, utf8Members]
      · obtain ⟨r, hm, h⟩ := Option.bind_eq_some_iff.mp h
        obtain ⟨rs, hms, hr⟩ := Option.map_eq_some_iff.mp h
        obtain ⟨rfl, -⟩ := Prod.mk.inj hr
        rw [utf8, utf8Members, ihm hm, ihms hms, Bool.and_self]
      · obtain ⟨r, -, hr⟩ := Option.map_eq_some_iff.mp h
        obtain ⟨rfl, -⟩ := Prod.mk.inj hr
        exact utf8_natural _
    · unfold parseItems at h
      split at h
      · obtain ⟨rfl, -⟩ := Prod.mk.inj (Option.some.inj h); simp [utf8Items]
      · obtain ⟨r, hv, h⟩ := Option.bind_eq_some_iff.mp h
        obtain ⟨rs, hvs, hr⟩ := Option.map_eq_some_iff.mp h
        obtain ⟨rfl, -⟩ := Prod.mk.inj hr
        rw [utf8Items, ihv hv, ihs hvs, Bool.and_self]
      · cases h
    · rw [parseMember] at h
      obtain ⟨r, hname, h⟩ := Option.bind_eq_some_iff.mp h
      split at h
      · obtain ⟨v, hv, hr⟩ := Option.map_eq_some_iff.mp h
        obtain ⟨rfl, -⟩ := Prod.mk.inj hr
        rw [valid_of_readText hname, ihv hv, Bool.and_self]
      · cases h
    · unfold parseMembers at h
      split at h
      · obtain ⟨rfl, -⟩ := Prod.mk.inj (Option.some.inj h); simp [utf8Members]
      · obtain ⟨r, hm, h⟩ := Option.bind_eq_some_iff.mp h
        obtain ⟨rs, hms, hr⟩ := Option.map_eq_some_iff.mp h
        obtain ⟨rfl, -⟩ := Prod.mk.inj hr
        rw [utf8Members, ihm hm, ihms hms, Bool.and_self]
      · cases h

theorem utf8_of_parse {text : Bytes} {v : Json} (h : parse text = some v) : v.utf8 = true := by
  obtain ⟨⟨w, rest⟩, hread, h⟩ := Option.bind_eq_some_iff.mp h
  split_ifs at h
  rw [← Option.some.inj h]
  exact (utf8_of_parse_parts _).1 hread

theorem parse_serialize {v : Json} (h : v.Canonical) :
    parse (serialize v) = if v.utf8 then some v else none := by
  have hread := (parse_serialize_parts ((serialize v).length + 1)).1 v [] h.1
    (le_trans (size_le_length v) (Nat.le_succ _)) rfl
  rw [List.append_nil] at hread
  rw [parse, hread]
  cases v.utf8 <;> rfl

/-- The codec of compact JSON text. -/
def codec : JsonCodec where
  serialize := serialize
  parse := parse
  utf8_of_parse := utf8_of_parse
  parse_serialize := parse_serialize

end JsonText
