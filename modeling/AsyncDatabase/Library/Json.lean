import AsyncDatabase.Library.Utf8

/-!
# JSON documents

`Json` is a document as a C++ JSON library holds it: integers keep the kind they are stored as, a
string is bytes, and the members of an object keep their order.

A `JsonCodec` is a pair of `serialize` and `parse` with the two things this development relies on:
a parsed document holds well-formed UTF-8 and nothing else, and parsing undoes serializing on a
canonical document unless one of its strings is not well-formed UTF-8 (the serializer writes the
bytes through, and the parser refuses them).
-/

inductive Json where
  | null
  | bool (b : Bool)
  /-- A signed number of 64 bits. -/
  | int64 (n : ℤ)
  /-- An unsigned number of 64 bits, which a parser uses for what no signed one holds. -/
  | uint64 (n : ℕ)
  /-- A number with a fraction, an exponent or too many digits. -/
  | double
  | string (s : Bytes)
  | array (items : List Json)
  | object (members : List (Bytes × Json))
  deriving Inhabited

namespace Json

/-! ### Reading a document -/

/-- The member of an object with this name, and nothing for a document of another kind. -/
def member? (name : Bytes) : Json → Option Json
  | object members => members.lookup name
  | _ => none

def asString? : Json → Option Bytes
  | string s => some s
  | _ => none

def asArray? : Json → Option (List Json)
  | array items => some items
  | _ => none

def isObject : Json → Bool
  | object _ => true
  | _ => false

def isTrue : Json → Bool
  | bool b => b
  | _ => false

/-! ### Strings, depth and canonical form -/

mutual

/-- Every string of the document, the names of members included, is well-formed UTF-8. -/
def utf8 : Json → Bool
  | string s => Utf8.valid s
  | array items => utf8Items items
  | object members => utf8Members members
  | _ => true

def utf8Items : List Json → Bool
  | [] => true
  | v :: vs => utf8 v && utf8Items vs

def utf8Members : List (Bytes × Json) → Bool
  | [] => true
  | (name, v) :: ms => Utf8.valid name && utf8 v && utf8Members ms

end

mutual

/-- How deep arrays and objects nest. -/
def depth : Json → ℕ
  | array items => depthItems items + 1
  | object members => depthMembers members + 1
  | _ => 0

def depthItems : List Json → ℕ
  | [] => 0
  | v :: vs => max (depth v) (depthItems vs)

def depthMembers : List (Bytes × Json) → ℕ
  | [] => 0
  | (_, v) :: ms => max (depth v) (depthMembers ms)

end

mutual

/-- Every number is of the kind a parser would give it, and no object names a member twice. -/
def regular : Json → Prop
  | int64 n => -2 ^ 63 ≤ n ∧ n < 2 ^ 63
  | uint64 n => 2 ^ 63 ≤ n ∧ n < 2 ^ 64
  | double => False
  | array items => regularItems items
  | object members => (members.map Prod.fst).Nodup ∧ regularMembers members
  | _ => True

def regularItems : List Json → Prop
  | [] => True
  | v :: vs => regular v ∧ regularItems vs

def regularMembers : List (Bytes × Json) → Prop
  | [] => True
  | (_, v) :: ms => regular v ∧ regularMembers ms

end

/-- How deep a parser follows a document. -/
def maxDepth : ℕ := 32

/-- A document a parser gives back as it was written. -/
def Canonical (v : Json) : Prop := v.regular ∧ v.depth ≤ maxDepth

theorem utf8Items_eq_all (vs : List Json) : utf8Items vs = vs.all utf8 := by
  induction vs with
  | nil => rw [utf8Items]; rfl
  | cons v vs ih => rw [utf8Items, ih, List.all_cons]

theorem utf8Members_eq_all (ms : List (Bytes × Json)) :
    utf8Members ms = ms.all fun m => Utf8.valid m.1 && utf8 m.2 := by
  induction ms with
  | nil => rw [utf8Members]; rfl
  | cons m ms ih => rw [utf8Members, ih, List.all_cons]

theorem regularItems_iff (vs : List Json) : regularItems vs ↔ ∀ v ∈ vs, v.regular := by
  induction vs with
  | nil => simp [regularItems]
  | cons v vs ih => simp [regularItems, ih]

theorem depthItems_le_iff (vs : List Json) (d : ℕ) : depthItems vs ≤ d ↔ ∀ v ∈ vs, v.depth ≤ d := by
  induction vs with
  | nil => simp [depthItems]
  | cons v vs ih => simp [depthItems, ih]

/-- A member of a well-formed document is well formed. -/
theorem utf8_of_member? {name : Bytes} {v w : Json} (hv : v.utf8 = true)
    (h : v.member? name = some w) : w.utf8 = true := by
  cases v with
  | object members =>
    rw [utf8, utf8Members_eq_all, List.all_eq_true] at hv
    obtain ⟨before, after, rfl, -⟩ := List.lookup_eq_some_iff.mp h
    have hw := hv (name, w) (by simp)
    exact (Bool.and_eq_true_iff.mp hw).2
  | _ => cases h

theorem utf8_of_asString? {v : Json} {s : Bytes} (hv : v.utf8 = true) (h : v.asString? = some s) :
    Utf8.valid s = true := by
  cases v with
  | string t => rw [← Option.some.inj h]; simpa [utf8] using hv
  | _ => cases h

theorem utf8_of_mem_asArray? {v w : Json} {vs : List Json} (hv : v.utf8 = true)
    (h : v.asArray? = some vs) (hw : w ∈ vs) : w.utf8 = true := by
  cases v with
  | array items =>
    rw [utf8, utf8Items_eq_all, List.all_eq_true] at hv
    exact hv w (Option.some.inj h ▸ hw)
  | _ => cases h

end Json

/-- A JSON library: its serializer and its parser, and what is relied on of the two. -/
structure JsonCodec where
  serialize : Json → Bytes
  parse : Bytes → Option Json
  /-- A parser refuses a document that holds invalid UTF-8. -/
  utf8_of_parse : ∀ {text : Bytes} {v : Json}, parse text = some v → v.utf8 = true
  /-- What a serializer writes is read back, unless a string in it is refused. -/
  parse_serialize : ∀ {v : Json}, v.Canonical →
    parse (serialize v) = if v.utf8 then some v else none
