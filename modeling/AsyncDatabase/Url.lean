import AsyncDatabase.Library.Bytes
import Mathlib.Data.List.TakeWhile

/-!
# URLs

What a path and a query say (`url/url.cpp`).
-/

namespace AsyncDatabase.Url

def percent : UInt8 := 37

def slash : UInt8 := 47

def questionMark : UInt8 := 63

def ampersand : UInt8 := 38

def equalsSign : UInt8 := 61

/-- The number a hexadecimal digit of either case stands for. -/
def hexDigit? (b : UInt8) : Option ℕ :=
  if 48 ≤ b ∧ b ≤ 57 then some (b.toNat - 48)
  else if 65 ≤ b ∧ b ≤ 70 then some (b.toNat - 55)
  else if 97 ≤ b ∧ b ≤ 102 then some (b.toNat - 87)
  else none

/-- `curl_easy_unescape`: a percent sign that no two hexadecimal digits follow stands for itself. -/
def decode : Bytes → Bytes
  | [] => []
  | [a] => [a]
  | [a, b] => [a, b]
  | a :: b :: c :: text =>
    match if a = percent then (hexDigit? b, hexDigit? c) else (none, none) with
    | (some high, some low) => UInt8.ofNat (16 * high + low) :: decode text
    | _ => a :: decode (b :: c :: text)

/-- `read_parameter`: the first parameter of the name, and nothing where there is none. -/
def readParameter (query name : Bytes) : Bytes :=
  match (query.splitOn ampersand).find? fun parameter =>
    equalsSign ∈ parameter ∧ parameter.takeWhile (· ≠ equalsSign) = name with
  | none => []
  | some parameter => decode ((parameter.dropWhile (· ≠ equalsSign)).drop 1)

/-- What holds no percent sign is what it stands for. -/
theorem decode_eq_self {text : Bytes} (h : percent ∉ text) : decode text = text := by
  induction hlength : text.length using Nat.strong_induction_on generalizing text with
  | _ n ih =>
    match text, h, hlength with
    | [], _, _ => rfl
    | [_], _, _ => rfl
    | [_, _], _, _ => rfl
    | a :: b :: c :: rest, h, hlength =>
      rw [List.mem_cons, not_or] at h
      rw [decode, if_neg (Ne.symm h.1)]
      dsimp only
      rw [ih _ (by rw [← hlength]; simp) h.2 rfl]

theorem decode_ne_nil {text : Bytes} (h : text ≠ []) : decode text ≠ [] := by
  match text with
  | [] => exact absurd rfl h
  | [_] => simp [decode]
  | [_, _] => simp [decode]
  | a :: b :: c :: rest =>
    rw [decode]
    split <;> simp

/-! ### Paths -/

/-- `split_path`: the segments of a path, decoded, without the empty ones. -/
def splitPath (target : Bytes) : List Bytes :=
  (((target.takeWhile (· ≠ questionMark)).splitOn slash).filter fun part =>
    !part.isEmpty).map decode

/-- `query_string`: what is behind the first question mark. -/
def queryString (target : Bytes) : Bytes := (target.dropWhile (· ≠ questionMark)).drop 1

/-- No segment of a path is empty. -/
theorem ne_nil_of_mem_splitPath {target segment : Bytes} (h : segment ∈ splitPath target) :
    segment ≠ [] := by
  obtain ⟨part, hpart, rfl⟩ := List.mem_map.mp h
  refine decode_ne_nil ?_
  simpa using (List.mem_filter.mp hpart).2

/-- Whether `curl_easy_escape` leaves a byte as it is. -/
def isUnreserved (b : UInt8) : Bool :=
  48 ≤ b ∧ b ≤ 57 ∨ 65 ≤ b ∧ b ≤ 90 ∨ 97 ≤ b ∧ b ≤ 122 ∨ b = 45 ∨ b = 46 ∨ b = 95 ∨ b = 126

/-- A hexadecimal digit, in upper case. -/
def hexDigit (n : ℕ) : UInt8 := UInt8.ofNat (if n < 10 then 48 + n else 55 + n)

/-- `curl_easy_escape`. -/
def encode (text : Bytes) : Bytes :=
  text.flatMap fun b =>
    if isUnreserved b then [b] else [percent, hexDigit (b.toNat / 16), hexDigit (b.toNat % 16)]

theorem hexDigit?_hexDigit {n : ℕ} (h : n < 16) : hexDigit? (hexDigit n) = some n := by
  interval_cases n <;> rfl

theorem decode_cons_of_ne {a : UInt8} (h : a ≠ percent) (text : Bytes) :
    decode (a :: text) = a :: decode text := by
  match text with
  | [] => rfl
  | [_] => rfl
  | b :: c :: rest => rw [decode, if_neg h]

theorem decode_percent {b c : UInt8} {high low : ℕ} (hb : hexDigit? b = some high)
    (hc : hexDigit? c = some low) (text : Bytes) :
    decode (percent :: b :: c :: text) = UInt8.ofNat (16 * high + low) :: decode text := by
  rw [decode, if_pos rfl, hb, hc]

/-- **What was encoded decodes to what it was.** -/
theorem decode_encode (text : Bytes) : decode (encode text) = text := by
  induction text with
  | nil => rfl
  | cons b text ih =>
    have hb := b.toNat_lt
    change decode (_ ++ encode text) = _
    dsimp only
    split_ifs with hunreserved
    · have hne : b ≠ percent := by
        rintro rfl
        exact absurd hunreserved (by decide)
      rw [List.singleton_append, decode_cons_of_ne hne, ih]
    · rw [List.cons_append, List.cons_append, List.singleton_append,
        decode_percent (hexDigit?_hexDigit (by omega)) (hexDigit?_hexDigit (by omega)), ih,
        Nat.div_add_mod, UInt8.ofNat_toNat]

/-- What is encoded is written in characters that stand for nothing else in a target. -/
theorem isUnreserved_of_mem_encode {text : Bytes} {b : UInt8} (h : b ∈ encode text) :
    isUnreserved b = true ∨ b = percent := by
  obtain ⟨c, -, hmem⟩ := List.mem_flatMap.mp h
  have hc := c.toNat_lt
  have hdigit : ∀ n < 16, isUnreserved (hexDigit n) = true := by
    intro n hn
    interval_cases n <;> rfl
  split_ifs at hmem with hunreserved
  · rw [List.mem_singleton.mp hmem]
    exact Or.inl hunreserved
  · simp only [List.mem_cons, List.not_mem_nil, or_false] at hmem
    rcases hmem with rfl | rfl | rfl
    · exact Or.inr rfl
    · exact Or.inl (hdigit _ (by omega))
    · exact Or.inl (hdigit _ (by omega))

theorem slash_notMem_encode (text : Bytes) : slash ∉ encode text := fun h =>
  absurd (isUnreserved_of_mem_encode h) (by decide)

theorem questionMark_notMem_encode (text : Bytes) : questionMark ∉ encode text := fun h =>
  absurd (isUnreserved_of_mem_encode h) (by decide)

theorem encode_eq_nil_iff {text : Bytes} : encode text = [] ↔ text = [] := by
  constructor
  · intro h
    rw [← decode_encode text, h]
    rfl
  · rintro rfl
    rfl

/-- A path put together from segments. -/
def joinPath (segments : List Bytes) : Bytes :=
  segments.flatMap fun segment => slash :: encode segment

/-- Segments that were put together behind slashes come apart at the slashes. -/
theorem splitOn_flatMap_slash {escape : Bytes → Bytes} {segments : List Bytes}
    (h : ∀ segment ∈ segments, slash ∉ escape segment) :
    (segments.flatMap fun segment => slash :: escape segment).splitOn slash =
    [] :: segments.map escape := by
  have hjoin : (segments.flatMap fun segment => slash :: escape segment) =
      [slash].intercalate ([] :: segments.map escape) := by
    clear h
    induction segments with
    | nil => rfl
    | cons segment segments ih =>
      rw [List.flatMap_cons, ih]
      cases segments <;> simp [List.intercalate, List.intersperse]
  have hslashes : ∀ part ∈ [] :: segments.map escape, slash ∉ part := by
    intro part hpart
    rcases List.mem_cons.mp hpart with rfl | hmem
    · exact List.not_mem_nil
    · obtain ⟨segment, hsegment, rfl⟩ := List.mem_map.mp hmem
      exact h segment hsegment
  rw [hjoin, List.splitOn_intercalate _ hslashes (by simp)]

/-- **A path that was put together is its segments, but for the empty ones.** -/
theorem splitPath_joinPath (segments : List Bytes) :
    splitPath (joinPath segments) = segments.filter fun segment => !segment.isEmpty := by
  have hmark : questionMark ∉ joinPath segments := by
    intro hmem
    obtain ⟨segment, -, hin⟩ := List.mem_flatMap.mp hmem
    rcases List.mem_cons.mp hin with hslash | hencoded
    · exact absurd hslash (by decide)
    · exact questionMark_notMem_encode segment hencoded
  have hpath : (joinPath segments).takeWhile (· ≠ questionMark) = joinPath segments := by
    refine List.takeWhile_eq_self_iff.mpr fun b hb => ?_
    simpa using fun heq : b = questionMark => hmark (heq ▸ hb)
  rw [splitPath, hpath, joinPath,
    splitOn_flatMap_slash fun segment _ => slash_notMem_encode segment]
  simp only [List.filter_cons, List.isEmpty_nil, Bool.not_true, Bool.false_eq_true, if_false,
    List.filter_map, List.map_map]
  have hsame : (fun part : Bytes => !part.isEmpty) ∘ encode = fun segment => !segment.isEmpty := by
    funext segment
    rw [Function.comp, Bool.eq_iff_iff]
    simp [encode_eq_nil_iff]
  rw [hsame]
  simp [Function.comp_def, decode_encode]

/-! ### Parameters -/

/-- Whether a parameter of a query has a name. -/
def isNamed (name parameter : Bytes) : Bool :=
  equalsSign ∈ parameter ∧ parameter.takeWhile (· ≠ equalsSign) = name

theorem readParameter_eq (query name : Bytes) : readParameter query name =
    ((query.splitOn ampersand).find? (isNamed name)).elim [] fun parameter =>
      decode ((parameter.dropWhile (· ≠ equalsSign)).drop 1) := by
  change _ = ((query.splitOn ampersand).find? fun parameter =>
    equalsSign ∈ parameter ∧ parameter.takeWhile (· ≠ equalsSign) = name).elim [] _
  unfold readParameter
  split
  · next hnone => rw [hnone, Option.elim_none]
  · next parameter hfound => rw [hfound, Option.elim_some]

/-- A query with one more parameter. -/
def withParameter (query name value : Bytes) : Bytes :=
  query ++ ampersand :: (name ++ equalsSign :: encode value)

theorem ampersand_notMem_encode (text : Bytes) : ampersand ∉ encode text := fun h =>
  absurd (isUnreserved_of_mem_encode h) (by decide)

variable {name : Bytes}

theorem splitOn_withParameter (hname : ampersand ∉ name) (query value : Bytes) :
    (withParameter query name value).splitOn ampersand =
      query.splitOn ampersand ++ [name ++ equalsSign :: encode value] := by
  have hone : ampersand ∉ name ++ equalsSign :: encode value := by
    rw [List.mem_append, List.mem_cons, not_or, not_or]
    exact ⟨hname, by decide, ampersand_notMem_encode value⟩
  rw [withParameter, List.splitOn_append_cons_self, List.splitOn_eq_singleton hone]

theorem takeWhile_parameter (hequals : equalsSign ∉ name) (value : Bytes) :
    (name ++ equalsSign :: encode value).takeWhile (· ≠ equalsSign) = name := by
  have hall : ∀ b ∈ name, decide (b ≠ equalsSign) = true := fun b hb =>
    decide_eq_true fun heq => hequals (heq ▸ hb)
  rw [List.takeWhile_append_of_pos hall]
  simp

/-- A parameter of another name is read as before. -/
theorem readParameter_withParameter_of_ne (hname : ampersand ∉ name) (hequals : equalsSign ∉ name)
    {other : Bytes} (hne : other ≠ name) (query value : Bytes) :
    readParameter (withParameter query name value) other = readParameter query other := by
  have hnone : List.find? (isNamed other) [name ++ equalsSign :: encode value] = none := by
    rw [List.find?_singleton, if_neg]
    rw [isNamed, takeWhile_parameter hequals]
    simpa using fun heq : name = other => hne heq.symm
  rw [readParameter_eq, readParameter_eq, splitOn_withParameter hname, List.find?_append, hnone,
    Option.or_none]

/-- The parameter that was added is read where the query had none of its name. -/
theorem readParameter_withParameter (hname : ampersand ∉ name) (hequals : equalsSign ∉ name)
    {query : Bytes}
    (hnone : (query.splitOn ampersand).find? (isNamed name) = none) (value : Bytes) :
    readParameter (withParameter query name value) name = value := by
  have hfound : List.find? (isNamed name) [name ++ equalsSign :: encode value] =
      some (name ++ equalsSign :: encode value) := by
    rw [List.find?_singleton, if_pos]
    rw [isNamed, takeWhile_parameter hequals]
    simp
  have hall : ∀ b ∈ name, decide (b ≠ equalsSign) = true := fun b hb =>
    decide_eq_true fun heq => hequals (heq ▸ hb)
  rw [readParameter_eq, splitOn_withParameter hname, List.find?_append, hnone,
    hfound, Option.none_or, Option.elim_some, List.dropWhile_append_of_pos hall]
  simp [decode_encode]

/-- A query that is put together from parameters, each a name and a value as it stands in the
query. -/
def joinParameters (parameters : List (Bytes × Bytes)) : Bytes :=
  [ampersand].intercalate (parameters.map fun parameter => parameter.1 ++ equalsSign :: parameter.2)

/-- **What a query was put together from is what is read of it**, each value decoded. -/
theorem readParameter_joinParameters {parameters : List (Bytes × Bytes)} (hne : parameters ≠ [])
    (hnames : ∀ parameter ∈ parameters, ampersand ∉ parameter.1 ∧ equalsSign ∉ parameter.1)
    (hvalues : ∀ parameter ∈ parameters, ampersand ∉ parameter.2) (name : Bytes) :
    readParameter (joinParameters parameters) name =
      (parameters.find? (·.1 = name)).elim [] fun parameter => decode parameter.2 := by
  have hsplit : (joinParameters parameters).splitOn ampersand =
      parameters.map fun parameter => parameter.1 ++ equalsSign :: parameter.2 := by
    refine List.splitOn_intercalate _ (fun part hpart => ?_) (by simpa using hne)
    obtain ⟨parameter, hmem, rfl⟩ := List.mem_map.mp hpart
    rw [List.mem_append, List.mem_cons, not_or, not_or]
    exact ⟨(hnames parameter hmem).1, by decide, hvalues parameter hmem⟩
  have htake : ∀ parameter ∈ parameters,
      (parameter.1 ++ equalsSign :: parameter.2).takeWhile (· ≠ equalsSign) = parameter.1 ∧
        (parameter.1 ++ equalsSign :: parameter.2).dropWhile (· ≠ equalsSign) =
          equalsSign :: parameter.2 := by
    intro parameter hmem
    have hall : ∀ b ∈ parameter.1, decide (b ≠ equalsSign) = true := fun b hb =>
      decide_eq_true fun heq => (hnames parameter hmem).2 (heq ▸ hb)
    rw [List.takeWhile_append_of_pos hall, List.dropWhile_append_of_pos hall]
    simp
  have hfind : (parameters.map fun parameter => parameter.1 ++ equalsSign :: parameter.2).find?
      (isNamed name) = (parameters.find? (·.1 = name)).map
        fun parameter => parameter.1 ++ equalsSign :: parameter.2 := by
    rw [List.find?_map]
    refine congrArg (Option.map _) (List.find?_congr fun parameter hmem => ?_)
    rw [Function.comp, isNamed, (htake parameter hmem).1]
    simp
  rw [readParameter_eq, hsplit, hfind]
  cases hfound : parameters.find? (·.1 = name) with
  | none => rfl
  | some parameter =>
    dsimp only [Option.map_some, Option.elim_some]
    rw [(htake parameter (List.mem_of_find?_eq_some hfound)).2]
    rfl

end AsyncDatabase.Url
