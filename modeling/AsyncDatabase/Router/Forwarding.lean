import AsyncDatabase.Router.Forwarder
import AsyncDatabase.Router.Session

/-!
# A request on its way

How a request is written down for another node (`target` and `headers_of` of
`cluster/http_forwarder.cpp`, `locate` and `message_of` of `http/beast_client.cpp`) and what the
session that takes it in makes of it (`server/session.cpp`). `forwarded_round_trip` says that a
request arrives as it was sent, unless its header takes more than a session reads of one: what a
target says in one byte may be written on in three. Beast carries a message as it is, unless its
target holds a byte that no target holds or it is over a limit of the session's.
-/

namespace AsyncDatabase

open Bytes (ascii)

/-- A byte no target holds: a control character, or a blank. -/
def isControl (b : UInt8) : Bool := b ≤ 32 ∨ b = 127

/-- The two functions of curl that `url::encode` and `url::decode` are. -/
structure Curl where
  escape : Bytes → Bytes
  unescape : Bytes → Bytes

/-- What is relied on of curl. -/
structure Curl.Lawful (curl : Curl) : Prop where
  unescape_escape : ∀ text, curl.unescape (curl.escape text) = text
  unescape_nil : curl.unescape [] = []
  clean : ∀ text, ∀ b ∈ curl.escape text,
    b ≠ Url.slash ∧ b ≠ Url.questionMark ∧ b ≠ Url.ampersand ∧ isControl b = false

/-- `url::split_path`. -/
def Curl.splitPath (curl : Curl) (target : Bytes) : List Bytes :=
  (((target.takeWhile (· ≠ Url.questionMark)).splitOn Url.slash).filter
    fun part => !part.isEmpty).map curl.unescape

namespace Verb

/-- `boost::beast::http::to_string`. -/
def name : Verb → Bytes
  | .get => ascii "GET"
  | .head => ascii "HEAD"
  | .put => ascii "PUT"
  | .delete => ascii "DELETE"
  | .other name => name

/-- `boost::beast::http::string_to_verb`. -/
def ofName (name : Bytes) : Verb :=
  if name = ascii "GET" then .get
  else if name = ascii "HEAD" then .head
  else if name = ascii "PUT" then .put
  else if name = ascii "DELETE" then .delete
  else .other name

/-- `is_routable_method`. -/
def isRoutable : Verb → Bool
  | .get | .head | .put | .delete => true
  | .other _ => false

theorem ofName_name {verb : Verb} (h : verb.isRoutable) : ofName verb.name = verb := by
  cases verb with
  | other name => cases h
  | get | head | put | delete => decide

end Verb

/-! ### Numbers in headers -/

/-- `std::to_string` of a number that may be negative. -/
def writeSigned (n : ℤ) : Bytes :=
  if n < 0 then 45 :: Bytes.decimal n.natAbs else Bytes.decimal n.natAbs

/-- `boost::conversion::try_lexical_convert` to a number of 64 bits with a sign. -/
def lexicalInt64 : Bytes → Option ℤ
  | 45 :: digits => (Bytes.readDecimal digits).bind fun n => if n ≤ 2 ^ 63 then some (-n) else none
  | 43 :: digits => (Bytes.readDecimal digits).bind fun n => if n < 2 ^ 63 then some n else none
  | digits => (Bytes.readDecimal digits).bind fun n => if n < 2 ^ 63 then some n else none

/-- The same to one without a sign, where a minus wraps the number round. -/
def lexicalUInt64 : Bytes → Option ℕ
  | 45 :: digits => (Bytes.readDecimal digits).bind fun n =>
      if n < 2 ^ 64 then some ((2 ^ 64 - n) % 2 ^ 64) else none
  | 43 :: digits => (Bytes.readDecimal digits).bind fun n => if n < 2 ^ 64 then some n else none
  | digits => (Bytes.readDecimal digits).bind fun n => if n < 2 ^ 64 then some n else none

/-- A number in decimal starts with no sign. -/
theorem exists_decimal_eq_cons (n : ℕ) :
    ∃ first rest, Bytes.decimal n = first :: rest ∧ first ≠ 45 ∧ first ≠ 43 := by
  obtain ⟨first, rest, h⟩ := List.exists_cons_of_ne_nil (Bytes.decimal_ne_nil n)
  have hdigit : Bytes.isDigit first = true :=
    Bytes.isDigit_of_mem_decimal (h ▸ List.mem_cons_self : first ∈ Bytes.decimal n)
  refine ⟨first, rest, h, ?_, ?_⟩
  · rintro rfl
    exact absurd hdigit (by decide)
  · rintro rfl
    exact absurd hdigit (by decide)

theorem lexicalInt64_writeSigned {n : ℤ} (hlow : -2 ^ 63 ≤ n) (hhigh : n < 2 ^ 63) :
    lexicalInt64 (writeSigned n) = some n := by
  unfold writeSigned
  split_ifs with hneg
  · rw [lexicalInt64, Bytes.readDecimal_decimal, Option.bind_some, if_pos (by omega),
      Int.ofNat_natAbs_of_nonpos (Int.le_of_lt hneg), neg_neg]
  · obtain ⟨first, rest, h, hminus, hplus⟩ := exists_decimal_eq_cons n.natAbs
    have hread := Bytes.readDecimal_decimal n.natAbs
    rw [h] at hread ⊢
    unfold lexicalInt64
    split
    · next heq => exact absurd (List.cons.inj heq).1 hminus
    · next heq => exact absurd (List.cons.inj heq).1 hplus
    · rw [hread, Option.bind_some, if_pos (by omega), Int.natAbs_of_nonneg (not_lt.mp hneg)]

theorem lexicalUInt64_decimal {n : ℕ} (h : n < 2 ^ 64) :
    lexicalUInt64 (Bytes.decimal n) = some n := by
  obtain ⟨first, rest, hcons, hminus, hplus⟩ := exists_decimal_eq_cons n
  have hread := Bytes.readDecimal_decimal n
  rw [hcons] at hread ⊢
  unfold lexicalUInt64
  split
  · next heq => exact absurd (List.cons.inj heq).1 hminus
  · next heq => exact absurd (List.cons.inj heq).1 hplus
  · rw [hread, Option.bind_some, if_pos h]

/-! ### Headers -/

def isBlank (b : UInt8) : Bool := b = 32 ∨ b = 9

theorem isBlank_of_mem_decimal (n : ℕ) : ∀ b ∈ Bytes.decimal n, isBlank b = false := by
  intro b hb
  have hdigit := Bytes.isDigit_of_mem_decimal hb
  by_contra hblank
  rcases of_decide_eq_true (Bool.eq_true_of_not_eq_false hblank) with rfl | rfl
  · exact absurd hdigit (by decide)
  · exact absurd hdigit (by decide)

theorem isBlank_of_mem_writeSigned (n : ℤ) : ∀ b ∈ writeSigned n, isBlank b = false := by
  intro b hb
  unfold writeSigned at hb
  split_ifs at hb with hneg
  · rcases List.mem_cons.mp hb with rfl | hdigit
    · rfl
    · exact isBlank_of_mem_decimal _ b hdigit
  · exact isBlank_of_mem_decimal _ b hb

/-- A byte as names of headers are compared, without regard to case. -/
def lowerCase (b : UInt8) : UInt8 := if 65 ≤ b ∧ b ≤ 90 then b + 32 else b

/-- Whether two headers have one name. -/
def sameName (a b : Bytes) : Bool := a.map lowerCase = b.map lowerCase

abbrev Fields := List (Bytes × Bytes)

namespace Fields

/-- `boost::beast::http::fields::set`. -/
def set (fields : Fields) (name value : Bytes) : Fields :=
  (fields.filter fun field => !sameName field.1 name) ++ [(name, value)]

/-- What is held under a name, and nothing where nothing is. -/
def get (fields : Fields) (name : Bytes) : Bytes :=
  ((fields.find? fun field => sameName field.1 name).map (·.2)).getD []

theorem get_set_self (fields : Fields) (name value : Bytes) :
    (fields.set name value).get name = value := by
  have hnone : (fields.filter fun field => !sameName field.1 name).find?
      (fun field => sameName field.1 name) = none := by
    refine List.find?_eq_none.mpr fun field hfield => ?_
    simpa using (List.mem_filter.mp hfield).2
  have hsame : sameName name name = true := decide_eq_true rfl
  rw [get, set, List.find?_append, hnone, Option.none_or, List.find?_singleton]
  dsimp only
  rw [if_pos hsame]
  rfl

theorem get_set_of_ne (fields : Fields) {name other : Bytes}
    (h : sameName name other = false) (value : Bytes) :
    (fields.set name value).get other = fields.get other := by
  have hkeep : ∀ field ∈ fields, sameName field.1 other = true → sameName field.1 name = false := by
    intro field _ hfield
    by_contra hsame
    have hsame := of_decide_eq_true (Bool.eq_true_of_not_eq_false hsame)
    exact absurd (decide_eq_true (hsame.symm.trans (of_decide_eq_true hfield)))
      (Bool.eq_false_iff.mp h)
  rw [get, get, set, List.find?_append, List.find?_singleton]
  dsimp only
  rw [if_neg (Bool.eq_false_iff.mp h), Option.or_none, List.find?_filter]
  congr 2
  refine List.find?_congr fun field hfield => ?_
  cases hother : sameName field.1 other with
  | false => simp
  | true => simp [hkeep field hfield hother]

end Fields

/-- A text without the blanks before and behind it. -/
def trimBlanks (text : Bytes) : Bytes :=
  ((text.dropWhile isBlank).reverse.dropWhile isBlank).reverse

/-- `set_header`: a line with nothing to separate a name from a value is no header. -/
def setHeader (fields : Fields) (line : Bytes) : Fields :=
  if 58 ∉ line ∨ line.head? = some 58 then fields
  else fields.set (line.takeWhile (· ≠ 58)) (trimBlanks ((line.dropWhile (· ≠ 58)).drop 1))

theorem trimBlanks_blank_cons {text : Bytes} (h : ∀ b ∈ text, isBlank b = false) :
    trimBlanks (32 :: text) = text := by
  have hself : ∀ text : Bytes, (∀ b ∈ text, isBlank b = false) → text.dropWhile isBlank = text := by
    intro text h
    cases text with
    | nil => rfl
    | cons b rest => rw [List.dropWhile_cons_of_neg (by simp [h b List.mem_cons_self])]
  rw [trimBlanks, List.dropWhile_cons_of_pos (by decide), hself text h,
    hself text.reverse (fun b hb => h b (List.mem_reverse.mp hb)), List.reverse_reverse]

/-- A line that was written as a name and a value is read as them. -/
theorem setHeader_line (fields : Fields) {name value : Bytes} (hne : name ≠ []) (hname : 58 ∉ name)
    (hvalue : ∀ b ∈ value, isBlank b = false) :
    setHeader fields (name ++ ascii ": " ++ value) = fields.set name value := by
  have hline : name ++ ascii ": " ++ value = name ++ 58 :: 32 :: value := by
    rw [List.append_assoc]
    rfl
  have hall : ∀ b ∈ name, decide (b ≠ 58) = true := fun b hb =>
    decide_eq_true fun heq => hname (heq ▸ hb)
  obtain ⟨first, rest, hcons⟩ := List.exists_cons_of_ne_nil hne
  rw [hline, setHeader, if_neg, List.takeWhile_append_of_pos hall,
    List.dropWhile_append_of_pos hall]
  · rw [List.takeWhile_cons_of_neg (by decide), List.append_nil,
      List.dropWhile_cons_of_neg (by decide),
      List.drop_succ_cons, List.drop_zero, trimBlanks_blank_cons hvalue]
  · rintro (hnot | hhead)
    · exact hnot (List.mem_append_right _ List.mem_cons_self)
    · rw [hcons, List.cons_append, List.head?_cons, Option.some.injEq] at hhead
      exact hname (hcons ▸ hhead ▸ List.mem_cons_self)

/-! ### What is sent -/

/-- `http::request`. -/
structure HttpRequest where
  method : Bytes
  url : Bytes
  body : Bytes
  headers : List Bytes

def forwardedHeader : Bytes := ascii "X-Asyncdb-Forwarded"

def termHeader : Bytes := ascii "X-Asyncdb-Term"

def countHeader : Bytes := ascii "X-Asyncdb-Count"

section Forwarding

variable (curl : Curl)

/-- The path of a request as it is written behind a node. -/
def writtenPath (path : List Bytes) : Bytes :=
  (path.flatMap fun segment => Url.slash :: curl.escape segment) ++ if path =
    [] then [Url.slash] else []

/-- `target`: the URL a request is sent to. -/
def forwardedUrl (node : Bytes) (request : Request) : Bytes :=
  node ++ writtenPath curl request.path ++
    if request.query ≠ [] then Url.questionMark :: request.query else []

/-- `headers_of`: the version travels only where the request has a term. -/
def headersOf (request : Request) : List Bytes :=
  (forwardedHeader ++ ascii ": " ++ ascii "true") ::
    if request.term ≠ 0 then
      [termHeader ++ ascii ": " ++ writeSigned request.term,
        countHeader ++ ascii ": " ++ Bytes.decimal request.count]
    else []

/-- `forwarded_to`. -/
def forwardedTo (node : Bytes) (request : Request) : HttpRequest where
  method := request.method.name
  url := forwardedUrl curl node request
  body := request.body
  headers := headersOf request

end Forwarding

/-- A URL as the pieces a request is sent with. -/
structure Location where
  host : Bytes
  port : Bytes
  target : Bytes
  authority : Bytes
  deriving DecidableEq, Repr

def scheme : Bytes := ascii "http://"

/-- Where a byte of a text stands last. -/
def rfind (b : UInt8) (text : Bytes) : Option ℕ :=
  (text.reverse.findIdx? (· = b)).map (text.length - 1 - ·)

/-- The host and the port of an authority: an address in brackets has colons of its own. -/
def hostPort (authority : Bytes) : Bytes × Bytes :=
  let bracket := rfind 93 authority
  let (host, port) := match rfind 58 authority with
    | some colon =>
      if bracket.all (· < colon) then (authority.take colon, authority.drop (colon + 1))
      else (authority, ascii "80")
    | none => (authority, ascii "80")
  match bracket with
  | some close =>
    if 1 < host.length ∧ host.head? =
      some 91 then ((host.drop 1).take (close - 1), port) else (host, port)
  | none => (host, port)

/-- Whether a byte ends an authority. -/
def endsAuthority (b : UInt8) : Bool := b = Url.slash ∨ b = Url.questionMark

/-- What a request asks a host for: the path and the query as they arrived. -/
def targetOf : Bytes → Bytes
  | [] => [Url.slash]
  | first :: rest => if first = Url.slash then first :: rest else Url.slash :: first :: rest

/-- `locate`. -/
def locate (url : Bytes) : Option Location :=
  if url.take scheme.length ≠ scheme then none
  else
    let behind := url.drop scheme.length
    let authority := behind.takeWhile fun b => !endsAuthority b
    let (host, port) := hostPort authority
    if host = [] ∨ port = [] then none
    else
      some { host, port, authority
             target := targetOf (behind.dropWhile fun b => !endsAuthority b) }

/-- A request as Beast sends it. -/
structure HttpMessage where
  method : Verb
  target : Bytes
  fields : Fields
  body : Bytes

/-- `prepare_payload`: the length of a body is told, and of none only by a PUT. -/
def preparePayload (message : HttpMessage) : HttpMessage :=
  if message.body ≠ [] ∨ message.method = .put then
    { message with
      fields := message.fields.set (ascii "Content-Length")
        (Bytes.decimal message.body.length) }
  else message

/-- `message_of`, of a URL that is one. -/
def messageOf (sending : HttpRequest) : Option HttpMessage :=
  (locate sending.url).map fun location =>
    preparePayload
      { method := .ofName sending.method
        target := location.target
        fields := sending.headers.foldl setHeader (Fields.set [] (ascii "Host") location.authority)
        body := sending.body }

def lineEnd : Bytes := [13, 10]

/-- What a message starts with as it is written: the line of the request, the fields and the line
that ends them. -/
def HttpMessage.header (message : HttpMessage) : Bytes :=
  message.method.name ++ ascii " " ++ message.target ++ ascii " HTTP/1.1" ++ lineEnd ++
    (message.fields.flatMap fun field => field.1 ++ ascii ": " ++ field.2 ++ lineEnd) ++ lineEnd

/-- The header that a request is sent on with. -/
def sentHeader (curl : Curl) (node : Bytes) (request : Request) : Bytes :=
  ((messageOf (forwardedTo curl node request)).map HttpMessage.header).getD []

/-! ### What arrives -/

/-- `max_header_size`: room for a key in which every byte is encoded, and for the rest. -/
def Session.maxHeaderSize : ℕ := 3 * Record.maxKeySize + 8 * 1024

/-- What the parser at the other end takes in, within the limits that `session::read` sets it. -/
def HttpMessage.arrived (message : HttpMessage) : Option HttpMessage :=
  if message.target.any isControl then none
  else if Session.maxHeaderSize < message.header.length then none
  else if Record.maxValueSize + 1 < message.body.length then none
  else some message

namespace Session

/-- `read_term`: a term that is no number is no term. -/
def readTerm (header : Bytes) : ℤ := (lexicalInt64 header).getD 0

/-- `read_count`. -/
def readCount (header : Bytes) : ℕ := (lexicalUInt64 header).getD 0

/-- `handle_request`: the request that is routed, where the message is not refused. -/
def read (curl : Curl) (message : HttpMessage) : Option Request :=
  if !message.method.isRoutable then none
  else if message.target.head? ≠ some Url.slash ∨
      (curl.splitPath (message.target.takeWhile (· ≠ Url.questionMark))).any
        (· = ascii "..") then none
  else some
    { method := message.method
      path := curl.splitPath message.target
      query := Url.queryString message.target
      body := message.body
      forwarded := message.fields.get forwardedHeader ≠ []
      term := readTerm (message.fields.get termHeader)
      count := readCount (message.fields.get countHeader) }

end Session

/-- What the session of another node makes of a request that is sent on to it. -/
def receivedBy (curl : Curl) (node : Bytes) (request : Request) : Option Request :=
  ((messageOf (forwardedTo curl node request)).bind HttpMessage.arrived).bind (Session.read curl)

/-- A request as a session routes it. -/
structure Request.Routed (request : Request) : Prop where
  method : request.method.isRoutable = true
  segments : ∀ segment ∈ request.path, segment ≠ [] ∧ segment ≠ ascii ".."
  query : ∀ b ∈ request.query, isControl b = false
  body : request.body.length ≤ Record.maxValueSize + 1

/-! ### Where it is sent -/

theorem head?_writtenPath (curl : Curl) (path : List Bytes) :
    (writtenPath curl path).head? = some Url.slash := by
  cases path <;> rfl

/-- What is behind a node that is sent to is nothing, or a slash. -/
theorem targetOf_eq_slash {behind : Bytes} (h : targetOf behind = [Url.slash]) :
    behind = [] ∨ behind = [Url.slash] := by
  cases behind with
  | nil => exact .inl rfl
  | cons first rest =>
    rw [targetOf] at h
    split_ifs at h with hslash
    · exact .inr h
    · exact absurd (List.cons.inj h).2 (List.cons_ne_nil _ _)

/-- A URL of the scheme is located by what is behind the scheme. -/
theorem locate_scheme (behind : Bytes) :
    locate (scheme ++ behind) =
      let authority := behind.takeWhile fun b => !endsAuthority b
      if (hostPort authority).1 = [] ∨ (hostPort authority).2 = [] then none
      else some
        { host := (hostPort authority).1
          port := (hostPort authority).2
          target := targetOf (behind.dropWhile fun b => !endsAuthority b)
          authority } := by
  rw [locate, if_neg, List.drop_left]
  rw [not_not, List.take_left]

/-- A target that is written behind a node is asked of that node. -/
theorem locate_append {node : Bytes} {home : Location} (hnode : locate node = some home)
    (hhome : home.target = [Url.slash]) {target : Bytes} (htarget : target.head? = some Url.slash) :
    ∃ before, (before = [] ∨ before = [Url.slash]) ∧
      locate (node ++ target) = some { home with target := before ++ target } := by
  have hscheme : node.take scheme.length = scheme := by
    by_contra hnot
    rw [locate, if_pos hnot] at hnode
    cases hnode
  obtain ⟨behind, rfl⟩ : ∃ behind, node = scheme ++ behind := by
    refine ⟨node.drop scheme.length, ?_⟩
    calc node = node.take scheme.length ++ node.drop scheme.length :=
          (List.take_append_drop _ _).symm
      _ = scheme ++ node.drop scheme.length := by rw [hscheme]
  rw [locate_scheme] at hnode
  dsimp only at hnode
  split_ifs at hnode with hnone
  cases hnode
  have hbefore := targetOf_eq_slash hhome
  set before := behind.dropWhile fun b => !endsAuthority b with hbehind
  -- the authority ends where it ended, at the first slash
  have hends : (before ++ target).head? = some Url.slash := by
    rcases hbefore with h | h
    · rw [h, List.nil_append, htarget]
    · rw [h]
      rfl
  obtain ⟨rest, hrest⟩ : ∃ rest, before ++ target = Url.slash :: rest := by
    cases hlist : before ++ target with
    | nil => rw [hlist] at hends; cases hends
    | cons first rest =>
      rw [hlist, List.head?_cons, Option.some.injEq] at hends
      exact ⟨rest, by rw [hends]⟩
  have hsplit : behind ++ target =
      (behind.takeWhile fun b => !endsAuthority b) ++ Url.slash :: rest := by
    rw [← hrest, hbehind, ← List.append_assoc, List.takeWhile_append_dropWhile]
  have hall : ∀ b ∈ behind.takeWhile fun b => !endsAuthority b, (!endsAuthority b) = true :=
    fun b hb => List.mem_takeWhile_imp (p := fun b => !endsAuthority b) hb
  refine ⟨before, hbefore, ?_⟩
  rw [List.append_assoc, locate_scheme, hsplit, List.takeWhile_append_of_pos hall,
    List.dropWhile_append_of_pos hall, List.takeWhile_cons_of_neg (by decide),
    List.dropWhile_cons_of_neg (by decide), List.append_nil]
  dsimp only
  rw [if_neg hnone, hrest]
  rfl

/-! ### What arrives is what was sent -/

namespace Curl

/-- A slash that leads a path leads nothing. -/
theorem splitPath_slash (curl : Curl) (target : Bytes) :
    curl.splitPath (Url.slash :: target) = curl.splitPath target := by
  have hsplit := List.splitOn_append_cons_self (a := Url.slash) []
    (target.takeWhile (· ≠ Url.questionMark))
  rw [List.nil_append, List.splitOn_nil, List.singleton_append] at hsplit
  rw [splitPath, splitPath, List.takeWhile_cons_of_pos (by decide), hsplit,
    List.filter_cons_of_neg (by decide)]

theorem splitPath_takeWhile (curl : Curl) (target : Bytes) :
    curl.splitPath (target.takeWhile (· ≠ Url.questionMark)) = curl.splitPath target := by
  rw [splitPath, splitPath, List.takeWhile_takeWhile]
  simp

variable {curl : Curl}

/-- A segment that is not empty is not written as an empty one. -/
theorem Lawful.escape_ne_nil (hcurl : curl.Lawful) {segment : Bytes} (h : segment ≠ []) :
    curl.escape segment ≠ [] := by
  intro hnil
  have hsame := hcurl.unescape_escape segment
  rw [hnil, hcurl.unescape_nil] at hsame
  exact h hsame.symm

theorem Lawful.mem_writtenPath (hcurl : curl.Lawful) {path : List Bytes} {b : UInt8}
    (h : b ∈ writtenPath curl path) : b ≠ Url.questionMark ∧ isControl b = false := by
  have hslash : b = Url.slash → b ≠ Url.questionMark ∧ isControl b = false := by
    rintro rfl
    decide
  rcases List.mem_append.mp h with hmem | hmem
  · obtain ⟨segment, -, hin⟩ := List.mem_flatMap.mp hmem
    rcases List.mem_cons.mp hin with heq | hescaped
    · exact hslash heq
    · obtain ⟨-, hmark, -, hcontrol⟩ := hcurl.clean segment b hescaped
      exact ⟨hmark, hcontrol⟩
  · split_ifs at hmem with hempty
    · exact hslash (List.mem_singleton.mp hmem)
    · exact absurd hmem List.not_mem_nil

/-- A path that was written is read as it was. -/
theorem Lawful.splitPath_writtenPath (hcurl : curl.Lawful) {path : List Bytes}
    (h : ∀ segment ∈ path, segment ≠ []) : curl.splitPath (writtenPath curl path) = path := by
  have hpath : (writtenPath curl path).takeWhile (· ≠ Url.questionMark) = writtenPath curl path :=
    List.takeWhile_eq_self_iff.mpr fun b hb => decide_eq_true (hcurl.mem_writtenPath hb).1
  cases path with
  | nil =>
    change curl.splitPath [Url.slash] = []
    rw [splitPath_slash, splitPath, List.takeWhile_nil, List.splitOn_nil]
    rfl
  | cons segment rest =>
    have hslash : ∀ text, Url.slash ∉ curl.escape text := fun text hmem =>
      (hcurl.clean text _ hmem).1 rfl
    have hkeep : ((segment :: rest).map curl.escape).filter (fun part => !part.isEmpty) =
        (segment :: rest).map curl.escape := by
      refine List.filter_eq_self.mpr fun part hpart => ?_
      obtain ⟨text, htext, rfl⟩ := List.mem_map.mp hpart
      simpa using hcurl.escape_ne_nil (h text htext)
    have hsame : curl.unescape ∘ curl.escape = id := funext hcurl.unescape_escape
    rw [splitPath, hpath, writtenPath, if_neg (List.cons_ne_nil _ _), List.append_nil,
      Url.splitOn_flatMap_slash fun text _ => hslash text, List.filter_cons_of_neg (by decide),
      hkeep, List.map_map, hsame, List.map_id]

end Curl

/-- The path and the query of a target are told apart by the first question mark. -/
theorem cut_target {path : Bytes} (hpath : Url.questionMark ∉ path) (query : Bytes) :
    (path ++ if query ≠ [] then Url.questionMark :: query else []).takeWhile
    (· ≠ Url.questionMark) = path ∧
      Url.queryString (path ++ if query ≠ [] then Url.questionMark :: query else []) = query := by
  have hall : ∀ b ∈ path, decide (b ≠ Url.questionMark) = true := fun b hb =>
    decide_eq_true fun heq => hpath (heq ▸ hb)
  rw [Url.queryString, List.takeWhile_append_of_pos hall, List.dropWhile_append_of_pos hall]
  split_ifs with hquery
  · rw [List.takeWhile_cons_of_neg (by decide), List.dropWhile_cons_of_neg
      (by decide), List.append_nil]
    exact ⟨rfl, rfl⟩
  · rw [not_not.mp hquery]
    exact ⟨List.append_nil _, rfl⟩

theorem readTerm_header {term : ℤ} (hlow : -2 ^ 63 ≤ term) (hhigh : term < 2 ^ 63) :
    Session.readTerm (if term ≠ 0 then writeSigned term else []) = term := by
  rw [Session.readTerm]
  split_ifs with hterm
  · rw [lexicalInt64_writeSigned hlow hhigh, Option.getD_some]
  · rw [not_not.mp hterm]
    rfl

theorem readCount_header {term : ℤ} {count : ℕ} (hcount : count < 2 ^ 64) :
    Session.readCount (if term ≠ 0 then Bytes.decimal count else []) = if term =
      0 then 0 else count := by
  rw [Session.readCount]
  by_cases hterm : term = 0
  · rw [if_neg (not_not.mpr hterm), if_pos hterm]
    rfl
  · rw [if_pos hterm, if_neg hterm, lexicalUInt64_decimal hcount, Option.getD_some]

/-- What the headers of a request say once they are with the ones Beast sets. -/
theorem get_headersOf (request : Request) (authority : Bytes) :
    let fields := (headersOf request).foldl setHeader (Fields.set [] (ascii "Host") authority)
    fields.get forwardedHeader = ascii "true" ∧
      fields.get termHeader = (if request.term ≠ 0 then writeSigned request.term else []) ∧
      fields.get countHeader = (if request.term ≠ 0 then Bytes.decimal request.count else []) := by
  dsimp only
  have hforwarded : ∀ b ∈ ascii "true", isBlank b = false := by decide +kernel
  rw [headersOf, List.foldl_cons, setHeader_line _ (by decide +kernel)
    (by decide +kernel) hforwarded]
  split_ifs with hterm
  · rw [List.foldl_cons, List.foldl_cons, List.foldl_nil,
      setHeader_line _ (by decide +kernel) (by decide +kernel)
        (isBlank_of_mem_writeSigned request.term),
      setHeader_line _ (by decide +kernel) (by decide +kernel)
        (isBlank_of_mem_decimal request.count)]
    refine ⟨?_, ?_, Fields.get_set_self _ _ _⟩
    · rw [Fields.get_set_of_ne _ (by decide +kernel),
        Fields.get_set_of_ne _ (by decide +kernel), Fields.get_set_self]
    · rw [Fields.get_set_of_ne _ (by decide +kernel), Fields.get_set_self]
  · rw [List.foldl_nil]
    refine ⟨Fields.get_set_self _ _ _, ?_, ?_⟩
    · rw [Fields.get_set_of_ne _ (by decide +kernel), Fields.get_set_of_ne _ (by decide +kernel)]
      rfl
    · rw [Fields.get_set_of_ne _ (by decide +kernel), Fields.get_set_of_ne _ (by decide +kernel)]
      rfl

theorem preparePayload_eq (message : HttpMessage) :
    preparePayload message = { message with fields := (preparePayload message).fields } := by
  unfold preparePayload
  split_ifs <;> rfl

theorem get_preparePayload (message : HttpMessage) {name : Bytes}
    (h : sameName (ascii "Content-Length") name = false) :
    (preparePayload message).fields.get name = message.fields.get name := by
  unfold preparePayload
  split_ifs with hbody
  · exact Fields.get_set_of_ne _ h _
  · rfl

section RoundTrip

variable {curl : Curl} {node : Bytes} {home : Location} {request : Request}

/-- The query as it is written behind a path. -/
def writtenQuery (query : Bytes) : Bytes :=
  if query ≠ [] then Url.questionMark :: query else []

variable (curl) in
/-- What a request is sent on as: a slash of the node's own may stand before its path. -/
theorem messageOf_forwardedTo (hnode : locate node = some home) (hhome : home.target = [Url.slash])
    (request : Request) : ∃ before, (before = [] ∨ before = [Url.slash]) ∧
      messageOf (forwardedTo curl node request) = some (preparePayload
        { method := .ofName request.method.name
          target := before ++ (writtenPath curl request.path ++ writtenQuery request.query)
          fields := (headersOf request).foldl setHeader
            (Fields.set [] (ascii "Host") home.authority)
          body := request.body }) := by
  have hhead : (writtenPath curl request.path ++ writtenQuery request.query).head? =
      some Url.slash := by
    rw [List.head?_append, head?_writtenPath]
    rfl
  obtain ⟨before, hbefore, hlocate⟩ := locate_append hnode hhome hhead
  have hurl : forwardedUrl curl node request =
      node ++ (writtenPath curl request.path ++ writtenQuery request.query) :=
    List.append_assoc _ _ _
  refine ⟨before, hbefore, ?_⟩
  rw [messageOf, forwardedTo]
  dsimp only
  rw [hurl, hlocate, Option.map_some]

/-- The header that is sent holds the path. -/
theorem length_writtenPath_le (hnode : locate node = some home) (hhome : home.target = [Url.slash])
    (request : Request) :
    (writtenPath curl request.path).length ≤ (sentHeader curl node request).length := by
  obtain ⟨before, -, hmessage⟩ := messageOf_forwardedTo curl hnode hhome request
  rw [sentHeader, hmessage, Option.map_some, Option.getD_some, HttpMessage.header,
    preparePayload_eq]
  simp only [List.length_append]
  omega

/-- What a session makes of a target that a request is written on as. -/
theorem Curl.Lawful.reads (hcurl : curl.Lawful) (h : request.Routed) {before : Bytes}
    (hbefore : before = [] ∨ before = [Url.slash]) :
    let target := before ++ (writtenPath curl request.path ++ writtenQuery request.query)
    curl.splitPath target = request.path ∧ Url.queryString target = request.query ∧
      target.head? = some Url.slash ∧ target.any isControl = false := by
  dsimp only
  have hmark : Url.questionMark ∉ writtenPath curl request.path := fun hmem =>
    (hcurl.mem_writtenPath hmem).1 rfl
  have hhead : (writtenPath curl request.path ++ writtenQuery request.query).head? =
      some Url.slash := by
    rw [List.head?_append, head?_writtenPath]
    rfl
  obtain ⟨hcut, hqueryString⟩ := cut_target hmark request.query
  have hsplit : curl.splitPath (writtenPath curl request.path ++ writtenQuery request.query) =
      request.path := by
    rw [← Curl.splitPath_takeWhile, writtenQuery, hcut,
      hcurl.splitPath_writtenPath fun s hs => (h.segments s hs).1]
  have hclean : (writtenPath curl request.path ++ writtenQuery request.query).any isControl =
      false := by
    refine List.any_eq_false.mpr fun b hb => Bool.eq_false_iff.mp ?_
    rcases List.mem_append.mp hb with hin | hin
    · exact (hcurl.mem_writtenPath hin).2
    · rw [writtenQuery] at hin
      split_ifs at hin with hnone
      · rcases List.mem_cons.mp hin with rfl | hin
        · rfl
        · exact h.query b hin
      · exact absurd hin List.not_mem_nil
  -- a slash of the node's own changes nothing
  rcases hbefore with rfl | rfl
  · exact ⟨hsplit, hqueryString, hhead, hclean⟩
  · refine ⟨(Curl.splitPath_slash curl _).trans hsplit, ?_, rfl, ?_⟩
    · rw [Url.queryString, List.singleton_append, List.dropWhile_cons_of_pos (by decide)]
      exact hqueryString
    · rw [List.singleton_append, List.any_cons, hclean]
      rfl

/-- A request that a session routes is received as it was, with the version it was ordered in, or
its header is too long. -/
theorem receivedBy_eq (hcurl : curl.Lawful) (hnode : locate node = some home)
    (hhome : home.target = [Url.slash])
    (h : request.Routed) (hlow : -2 ^ 63 ≤ request.term) (hhigh : request.term < 2 ^ 63)
    (hcount : request.count < 2 ^ 64) : receivedBy curl node request =
      if Session.maxHeaderSize < (sentHeader curl node request).length then none
      else some request.received := by
  obtain ⟨before, hbefore, hmessage⟩ := messageOf_forwardedTo curl hnode hhome request
  obtain ⟨hpath, hquery, hhead, hclean⟩ := hcurl.reads h hbefore
  set target := before ++ (writtenPath curl request.path ++ writtenQuery request.query) with htarget
  have htraversal : (curl.splitPath (target.takeWhile (· ≠ Url.questionMark))).any
      (· = ascii "..") = false := by
    rw [Curl.splitPath_takeWhile, hpath]
    exact List.any_eq_false.mpr fun segment hsegment => by simpa using
      (h.segments segment hsegment).2
  obtain ⟨hforwarded, hterm, hcount'⟩ := get_headersOf request home.authority
  rw [receivedBy, sentHeader, hmessage, Option.map_some, Option.getD_some, Option.bind_some,
    preparePayload_eq, HttpMessage.arrived]
  dsimp only
  rw [if_neg (Bool.eq_false_iff.mp hclean), if_neg (not_lt.mpr h.body)]
  split_ifs with hlong
  · rfl
  rw [Option.bind_some, Session.read]
  dsimp only
  rw [Verb.ofName_name h.method, if_neg (by rw [h.method]; decide),
    if_neg (not_or.mpr ⟨not_not.mpr hhead, Bool.eq_false_iff.mp htraversal⟩),
    hpath, hquery, get_preparePayload _ (by decide +kernel),
    get_preparePayload _ (by decide +kernel), get_preparePayload _ (by decide +kernel)]
  dsimp only
  rw [hforwarded, hterm, hcount', readTerm_header hlow hhigh, readCount_header hcount]
  rfl

/-- **A forwarded request arrives as it was**: by its method, its path, its query and its body, as
one that was sent on, in the term it was ordered in, and with its count where there is a term. It
does wherever a session reads as long a header as it is written with, and else not at all. -/
theorem forwarded_round_trip (hcurl : curl.Lawful) (request : Request)
    (hnode : locate node = some home) (hhome : home.target = [Url.slash])
    (h : request.Routed) (hlow : -2 ^ 63 ≤ request.term) (hhigh : request.term < 2 ^ 63)
    (hcount : request.count < 2 ^ 64) :
    ((sentHeader curl node request).length ≤ Session.maxHeaderSize →
      ∃ arrived, receivedBy curl node request = some arrived ∧
        arrived.method = request.method ∧ arrived.path = request.path ∧
        arrived.query = request.query ∧
        arrived.body = request.body ∧ arrived.forwarded = true ∧ arrived.term = request.term ∧
        (request.term ≠ 0 → arrived.count = request.count)) ∧
    (Session.maxHeaderSize < (sentHeader curl node request).length →
      receivedBy curl node request = none) := by
  have hreceived := receivedBy_eq hcurl hnode hhome h hlow hhigh hcount
  refine ⟨fun hfits => ?_, fun hlong => ?_⟩
  · rw [if_neg (not_lt.mpr hfits)] at hreceived
    exact ⟨request.received, hreceived, rfl, rfl, rfl, rfl, rfl, rfl, fun hterm => if_neg hterm⟩
  · rwa [if_pos hlong] at hreceived

end RoundTrip

/-! ### curl and the session -/

/-- curl as its manual has it. -/
def Curl.real : Curl where
  escape := Url.encode
  unescape := Url.decode

theorem isControl_of_isUnreserved {b : UInt8} (h : Url.isUnreserved b = true) :
    isControl b = false := by
  have hb := of_decide_eq_true h
  refine decide_eq_false ?_
  rw [UInt8.le_iff_toNat_le, ← UInt8.toNat_inj]
  simp only [UInt8.le_iff_toNat_le, ← UInt8.toNat_inj] at hb
  simp only [UInt8.reduceToNat] at *
  omega

theorem Curl.lawful_real : Curl.real.Lawful where
  unescape_escape := Url.decode_encode
  unescape_nil := rfl
  clean := by
    intro text b hb
    rcases Url.isUnreserved_of_mem_encode hb with hunreserved | rfl
    · refine ⟨?_, ?_, ?_, isControl_of_isUnreserved hunreserved⟩
      · rintro rfl
        exact absurd hunreserved (by decide)
      · rintro rfl
        exact absurd hunreserved (by decide)
      · rintro rfl
        exact absurd hunreserved (by decide)
    · decide

/-- A session routes no other requests than those. -/
theorem routed_of_read {message : HttpMessage} {request : Request}
    (h : message.arrived.bind (Session.read Curl.real) = some request) : request.Routed := by
  obtain ⟨taken, harrived, hread⟩ := Option.bind_eq_some_iff.mp h
  rw [HttpMessage.arrived] at harrived
  split_ifs at harrived with hclean hlong hbody
  cases harrived
  rw [Session.read] at hread
  split_ifs at hread with hmethod hrefused
  cases hread
  obtain ⟨-, htraversal⟩ := not_or.mp hrefused
  rw [Curl.splitPath_takeWhile] at htraversal
  refine ⟨?_, ?_, ?_, not_lt.mp hbody⟩
  · simpa using hmethod
  · intro segment hsegment
    refine ⟨Url.ne_nil_of_mem_splitPath hsegment, fun heq => htraversal ?_⟩
    exact List.any_eq_true.mpr ⟨segment, hsegment, decide_eq_true heq⟩
  · intro b hb
    have hmem : b ∈ message.target := (List.dropWhile_suffix _).subset (List.mem_of_mem_drop hb)
    by_contra hcontrol
    exact hclean (List.any_eq_true.mpr ⟨b, hmem, Bool.eq_true_of_not_eq_false hcontrol⟩)

/-- A key with a slash, a percent sign and a zero byte in it, and a term below zero. -/
theorem forwarded_round_trip_key :
    ∃ arrived, receivedBy Curl.real (ascii "http://b:80")
        { method := .put, path := [ascii "table", [47, 37, 0]], query := [97, 61, 63],
          term := -3, count := 9 } = some arrived ∧
      arrived.path = [ascii "table", [47, 37, 0]] ∧ arrived.query =
        [97, 61, 63] ∧ arrived.term = -3 ∧
      arrived.count = 9 := by
  have hlocate : locate (ascii "http://b:80") =
      some { host := ascii "b", port := ascii "80", target := [Url.slash]
             authority := ascii "b:80" } := by
    decide +kernel
  obtain ⟨hfits, -⟩ :=
    forwarded_round_trip Curl.lawful_real
      { method := .put, path := [ascii "table", [47, 37, 0]], query := [97, 61, 63],
        term := -3, count := 9 }
      hlocate rfl ⟨rfl, by decide +kernel, by decide +kernel, by decide⟩ (by decide) (by decide)
      (by decide)
  obtain ⟨arrived, hreceived, -, hpath, hquery, -, -, hterm, hcount⟩ := hfits (by decide +kernel)
  exact ⟨arrived, hreceived, hpath, hquery, hterm, hcount (by decide)⟩

/-! ### What does not arrive -/

/-- A path of which nothing is encoded is read as it stands. -/
theorem Curl.reads_plain {segments : List Bytes} (h : ∀ segment ∈ segments, segment ≠ [] ∧
    Url.slash ∉ segment ∧ Url.questionMark ∉ segment ∧ Url.percent ∉ segment) :
    let target := segments.flatMap fun segment => Url.slash :: segment
    Curl.real.splitPath target = segments ∧ Url.queryString target = [] := by
  dsimp only
  have hmark : ∀ b ∈ segments.flatMap fun segment => Url.slash :: segment,
      decide (b ≠ Url.questionMark) = true := by
    intro b hb
    obtain ⟨segment, hsegment, hin⟩ := List.mem_flatMap.mp hb
    refine decide_eq_true ?_
    rcases List.mem_cons.mp hin with rfl | hin
    · decide
    · rintro rfl
      exact (h segment hsegment).2.2.1 hin
  have hsplit : (segments.flatMap fun segment => Url.slash :: segment).splitOn Url.slash =
      [] :: segments.map id :=
    Url.splitOn_flatMap_slash fun segment hsegment => (h segment hsegment).2.1
  have hkeep : segments.filter (fun part => !part.isEmpty) = segments :=
    List.filter_eq_self.mpr fun segment hsegment => by simpa using (h segment hsegment).1
  have hdecode : segments.map Curl.real.unescape = segments :=
    (List.map_congr_left fun segment hsegment =>
      Url.decode_eq_self (h segment hsegment).2.2.2).trans (List.map_id _)
  refine ⟨?_, ?_⟩
  · rw [splitPath, List.takeWhile_eq_self_iff.mpr hmark, hsplit, List.map_id,
      List.filter_cons_of_neg (by decide), hkeep, hdecode]
  · rw [Url.queryString, List.dropWhile_eq_nil_iff.mpr hmark, List.drop_nil]

/-- A byte that stands for something else in a target is written in three. -/
theorem Url.length_encode_replicate (n : ℕ) {b : UInt8} (h : Url.isUnreserved b = false) :
    (Url.encode (List.replicate n b)).length = 3 * n := by
  simp [Url.encode, h, Nat.mul_comm]

/-- The name of a table: ten thousand exclamation marks. -/
def longName : Bytes := List.replicate 10000 33

/-- A request to drop the table of that name, as a client sends it. -/
def droppingLong : HttpMessage where
  method := .delete
  target := [ascii "table", longName].flatMap fun segment => Url.slash :: segment
  fields := [(ascii "Host", ascii "a")]
  body := []

/-- The same as a session routes it. -/
def dropLong : Request where
  method := .delete
  path := [ascii "table", longName]

theorem length_header_droppingLong : droppingLong.header.length = 10036 := by
  simp only [HttpMessage.header, droppingLong, List.length_append, List.flatMap_cons,
    List.flatMap_nil, List.length_cons, List.length_nil, longName, List.length_replicate]
  decide +kernel

theorem arrived_droppingLong : droppingLong.arrived = some droppingLong := by
  have hclean : droppingLong.target.any isControl = false := by
    simp only [droppingLong, longName, List.flatMap_cons, List.flatMap_nil, List.any_append,
      List.any_cons, List.any_replicate]
    decide +kernel
  rw [HttpMessage.arrived, if_neg (Bool.eq_false_iff.mp hclean), length_header_droppingLong,
    if_neg (by decide), if_neg (by decide)]

theorem read_droppingLong : Session.read Curl.real droppingLong = some dropLong := by
  have hlong : ∀ b, b ∈ longName → b = 33 := fun b hb => List.eq_of_mem_replicate hb
  obtain ⟨hpath, hquery⟩ : Curl.real.splitPath droppingLong.target = [ascii "table", longName] ∧
      Url.queryString droppingLong.target = [] := by
    refine Curl.reads_plain fun segment hsegment => ?_
    rcases List.mem_cons.mp hsegment with rfl | hlast
    · decide +kernel
    · rw [List.mem_singleton.mp hlast]
      refine ⟨List.cons_ne_nil _ _, ?_, ?_, ?_⟩
      · exact fun hslash => absurd (hlong _ hslash) (by decide)
      · exact fun hmark => absurd (hlong _ hmark) (by decide)
      · exact fun hpercent => absurd (hlong _ hpercent) (by decide)
  have hhead : droppingLong.target.head? = some Url.slash := rfl
  have htraversal : ([ascii "table", longName].any (· = ascii "..")) = false := by
    decide +kernel
  rw [Session.read, Curl.splitPath_takeWhile, hpath, hquery, if_neg (by decide),
    if_neg (not_or.mpr ⟨not_not.mpr hhead, Bool.eq_false_iff.mp htraversal⟩)]
  rfl

/-- **What one session routes the next may refuse.** Each of the ten thousand bytes is sent on as
three, and no session reads as long a header. -/
theorem not_forwarded_dropLong :
    droppingLong.arrived.bind (Session.read Curl.real) = some dropLong ∧
      receivedBy Curl.real (ascii "http://b:80") dropLong = none := by
  have hrouted : droppingLong.arrived.bind (Session.read Curl.real) = some dropLong := by
    rw [arrived_droppingLong, Option.bind_some, read_droppingLong]
  have hlocate : locate (ascii "http://b:80") =
      some { host := ascii "b", port := ascii "80", target := [Url.slash]
             authority := ascii "b:80" } := by
    decide +kernel
  have hencoded : (Url.encode longName).length = 3 * 10000 :=
    Url.length_encode_replicate 10000 (by decide)
  have hlong : 3 * 10000 ≤ (sentHeader Curl.real (ascii "http://b:80") dropLong).length := by
    refine le_trans ?_ (length_writtenPath_le hlocate rfl dropLong)
    rw [← hencoded, writtenPath, dropLong]
    simp only [List.flatMap_cons, List.flatMap_nil, List.length_append, List.length_cons,
      Curl.real]
    omega
  refine ⟨hrouted, ?_⟩
  rw [receivedBy_eq Curl.lawful_real hlocate rfl (routed_of_read hrouted) (by decide) (by decide)
    (by decide), if_pos]
  exact hlong.trans_lt' (by decide)

end AsyncDatabase
