import AsyncDatabase.Relay
import AsyncDatabase.Walking

/-!
# The threads of a walk

A walk has one thread that asks for files and one for each of its pieces that takes them in
(`transfer::walk` and `take_in` of `transfer/transfer.cpp`), with a relay for each piece between
them. Here each of them takes its steps one at a time, down to the mutexes of the relays
(`Walkers.step`). `threads_walk` says that what they come to is what the walk of
`AsyncDatabase.Walking` does, whose pieces have queues without a bound; `walk_ends` that they get
one another to the end.
-/

namespace AsyncDatabase

open Machine

/-! ### The threads -/

/-- The two threads that use one relay. -/
inductive Side where
  | asker
  | taker
  deriving DecidableEq

instance : Fintype Side where
  elems := {.asker, .taker}
  complete side := by cases side <;> decide

/-- A file of records. -/
abbrev RecordFile := List Store.Carried

/-- Where a thread is in `take_in`. -/
inductive TakerStage where
  /-- `carrying.take()`. -/
  | taking
  /-- It has a file, and is to look whether one failed. -/
  | looking (file : RecordFile)
  /-- `take(*file)`. -/
  | storing (file : RecordFile)
  | ended
  deriving DecidableEq

/-- Where the thread is that asks. -/
inductive AskerStage where
  | asking
  /-- It closes the relays one by one, and then joins the others. -/
  | closing (piece : ℕ)

/-- `transfer::walk` as its threads run. -/
structure Walkers (n : ℕ) where
  pieces : Fin n → Reading
  relays : Fin n → Relay.Threads RecordFile Side := fun _ => { state := {} }
  takers : Fin n → TakerStage := fun _ => .taking
  /-- The files of the last fan out that are still to be put. -/
  due : List (Fin n × RecordFile) := []
  asker : AskerStage := .asking
  failed : Bool := false
  handed : List RecordFile := []

inductive WalkersEvent (n : ℕ) where
  /-- A fan out is answered. -/
  | ask (sources : Fin n → Except Response Store)
  /-- The token or the patience ends the asking, or there is nothing left to ask for. -/
  | finish
  | asker (chosen : Side)
  | taker (piece : Fin n) (chosen : Side) (throws : Bool)
  | wake (piece : Fin n) (side : Side)

namespace Walkers

variable (wanted : Share) {n : ℕ}

def start (points : List Bytes) : Walkers (piecesOf points).length where
  pieces := (Transfer.start points).pieces

/-- What an answer makes of a piece, with the file it brings on the piece's own queue. -/
def answered (s : Walkers n) (sources : Fin n → Except Response Store) (i : Fin n) : Reading :=
  if (s.pieces i).going then
    carry (s.pieces i) (Transfer.answerOf wanted (n := n) (s.pieces i).toPiece (sources i))
  else s.pieces i

/-- A fan out is answered: the pieces stand where their answers leave them, and the files are to be
put one after the other. -/
def asked (s : Walkers n) (sources : Fin n → Except Response Store) : Walkers n :=
  { s with
    pieces := fun i => { s.answered wanted sources i with relay := [] }
    due := (List.finRange n).flatMap fun i => (s.answered wanted sources i).relay.map (Prod.mk i) }

def relayStep (s : Walkers n) (i : Fin n) (e : Relay.Event RecordFile Side) : Walkers n :=
  { s with relays := Function.update s.relays i (Relay.monitor.step (s.relays i) e) }

/-- The relay the asking thread is to call, and how. -/
def due? (s : Walkers n) : Option (Fin n × RelayCall RecordFile) :=
  match s.asker with
  | .asking => s.due.head?.map fun next => (next.1, .put next.2)
  | .closing piece => if h : piece < n then some (⟨piece, h⟩, .close) else none

/-- The asking thread goes on once its call has returned. -/
def returned (s : Walkers n) : Walkers n :=
  match s.asker with
  | .asking => { s with due := s.due.tail }
  | .closing piece => { s with asker := .closing (piece + 1) }

/-- Whether a thread is in a call of a relay. -/
def isIn (s : Walkers n) (i : Fin n) (side : Side) : Bool := ((s.relays i).stages side).isSome

/-- The next step of the asking thread. -/
def askerStep (s : Walkers n) (chosen : Side) : Walkers n :=
  match s.due? with
  | none => s
  | some (i, call) =>
    if s.isIn i .asker then
      let s := s.relayStep i (.go .asker chosen)
      if s.isIn i .asker then s else s.returned
    else s.relayStep i (.call .asker call)

/-- What a taker does with what `take` returns. -/
def ofTaken : List (RelayAnswer RecordFile) → TakerStage
  | [.taken (some file)] => .looking file
  | [] => .taking
  | [.taken none] => .ended
  | .done :: _ => .ended
  | .taken _ :: _ :: _ => .ended

def setTaker (s : Walkers n) (i : Fin n) (stage : TakerStage) : Walkers n :=
  { s with takers := Function.update s.takers i stage }

/-- The next step of a taker. -/
def takerStep (s : Walkers n) (i : Fin n) (chosen : Side) (throws : Bool) : TakerStage → Walkers n
  | .taking =>
    if s.isIn i .taker then
      let returned := Monitor.returns Relay.monitor .taker (s.relays i) (.go .taker chosen)
      (s.relayStep i (.go .taker chosen)).setTaker i (ofTaken returned)
    else s.relayStep i (.call .taker .take)
  | .looking file => s.setTaker i (if s.failed then .taking else .storing file)
  | .storing file =>
    { s.setTaker i .taking with failed := s.failed || throws, handed := s.handed ++ [file] }
  | .ended => s

def step (s : Walkers n) : WalkersEvent n → Walkers n
  | .ask sources =>
    match s.asker with
    | .closing _ => s
    | .asking =>
      if s.due = [] then s.asked wanted sources else s
  | .finish =>
    match s.asker with
    | .closing _ => s
    | .asking => if s.due = [] then { s with asker := .closing 0 } else s
  | .asker chosen => s.askerStep chosen
  | .taker i chosen throws => s.takerStep i chosen throws (s.takers i)
  | .wake i side => s.relayStep i (.wake side)

/-! ### What the threads come to -/

/-- The files a taker has in its hands, where `pending` is what it is about to be returned. -/
def handOf (pending : List (RelayAnswer RecordFile)) : TakerStage → List RecordFile
  | .looking file | .storing file => [file]
  | .taking | .ended => pending.flatMap Relay.takes

def inHand (s : Walkers n) (i : Fin n) : List RecordFile :=
  handOf ((s.relays i).pending .taker) (s.takers i)

/-- The files that are still to be put: the first is there already once its call is about to
return. -/
def unput (s : Walkers n) : List (Fin n × RecordFile) :=
  match s.due with
  | [] => []
  | next :: rest => if (s.relays next.1).pending .asker = [] then next :: rest else rest

/-- The files of a piece that wait to be taken in. -/
def queue (s : Walkers n) (i : Fin n) : List RecordFile :=
  s.inHand i ++ (s.relays i).state.slot.toList ++
    s.unput.filterMap fun next => if next.1 = i then some next.2 else none

/-- A step of the walk that a step of the threads comes to. -/
def effects (s : Walkers n) : WalkersEvent n → List (WalkEvent n)
  | .ask sources =>
    match s.asker with
    | .closing _ => []
    | .asking => if s.due = [] then [.ask sources] else []
  | .taker i _ throws =>
    match s.takers i with
    | .looking _ => if s.failed then [.take i false] else []
    | .storing _ => [.take i throws]
    | .taking | .ended => []
  | .finish | .asker _ | .wake _ _ => []

/-- The threads are where the walk is: the pieces stand where they do, with what waits for them.
Once a file could not be taken in, more may have been handed over than the walk says. -/
structure Walks (s : Walkers n) (t : Transfer n) : Prop where
  pieces : ∀ i, t.pieces i = { s.pieces i with relay := s.queue i }
  failed : t.failed = s.failed
  handed : s.failed = false → t.handed = s.handed

/-- The takers are joined. -/
def isOver (s : Walkers n) : Bool :=
  match s.asker with
  | .asking => false
  | .closing piece => decide (n ≤ piece ∧ ∀ i, s.takers i = .ended)

/-- `transfer::outcome`, as the asking thread says it in the end. -/
def whole (s : Walkers n) : Bool := decide (s.failed = false ∧ ∀ i, (s.pieces i).whole = true)

def refused (s : Walkers n) : Bool := decide (∃ i, (s.pieces i).refused = true)

/-- Whether an event is a step of a thread. -/
def moves (s : Walkers n) : WalkersEvent n → Bool
  | .asker chosen =>
    s.due?.any fun next =>
      ((s.relays next.1).stages .asker).all ((s.relays next.1).moves Relay.monitor chosen)
  | .taker i chosen _ =>
    match s.takers i with
    | .taking => ((s.relays i).stages .taker).all ((s.relays i).moves Relay.monitor chosen)
    | .looking _ | .storing _ => true
    | .ended => false
  | .ask _ | .finish | .wake _ _ => false

/-- The steps of threads among the events. -/
def moved (s : Walkers n) (e : WalkersEvent n) : List Unit := if s.moves e then [()] else []

/-! ### What is left to do -/

/-- What a taker has left of its turn with a file. -/
def leftOf (isIn : Bool) : TakerStage → ℕ
  | .taking => if isIn then 3 else 14
  | .looking _ => 2
  | .storing _ => 1
  | .ended => 0

def pieceLeft (s : Walkers n) (i : Fin n) : ℕ :=
  (s.relays i).potential + 14 * (s.queue i).length + leftOf (s.isIn i .taker) (s.takers i)

/-- How many calls the asking thread is still to make. -/
def callsLeft (s : Walkers n) : ℕ :=
  match s.asker with
  | .asking => s.due.length + n
  | .closing piece => n - piece

def isCalling (s : Walkers n) : Bool := s.due?.any fun next => s.isIn next.1 .asker

def askerLeft (s : Walkers n) : ℕ := 12 * s.callsLeft - if s.isCalling then 11 else 0

def left (s : Walkers n) : ℕ := ∑ i, s.pieceLeft i + s.askerLeft

/-- What an event adds to what is left. -/
def adds : WalkersEvent n → ℕ
  | .ask _ => 26 * n
  | .wake _ _ => 3
  | .finish | .asker _ | .taker _ _ _ => 0

/-! ### Where the threads may be -/

/-- The calls of a relay that are for each thread to make. -/
def MayCall (next : Option (Fin n × RelayCall RecordFile)) (i : Fin n) :
    Side → RelayCall RecordFile → Prop
  | .asker, call => next = some (i, call)
  | .taker, call => call = .take

/-- What the threads of one piece are to each other. -/
structure PieceSound (asker : AskerStage) (next : Option (Fin n × RelayCall RecordFile)) (i : Fin n)
    (r : Relay.Threads RecordFile Side) (taker : TakerStage) : Prop where
  held : Relay.monitor.Held r
  minded : Relay.monitor.Minded Relay.Settled r
  calls : Monitor.Calls (MayCall next i) r
  asks : r.stages .asker ≠ none → ∃ call, next = some (i, call)
  takes : r.stages .taker ≠ none → taker = .taking
  closed : r.state.closed = true → ∃ k, asker = .closing k ∧ (i : ℕ) ≤ k
  shut : ∀ k, asker = .closing k → (i : ℕ) < k → r.state.closed = true
  /-- The asking thread is done with closing a relay that is closed. -/
  shuts : ∀ notice result, r.stages .asker = some (.leaving notice result) →
    asker = .closing i → r.state.closed = true
  /-- A taker that finds no file finds none later. -/
  ends : ∀ notice result, r.stages .taker = some (.leaving notice result) →
    Relay.takes result = [] → r.state.closed = true ∧ r.state.slot = none
  ended : taker = .ended → r.state.closed = true ∧ r.state.slot = none

structure Sound (s : Walkers n) : Prop where
  pieces : ∀ i, PieceSound s.asker s.due? i (s.relays i) (s.takers i)
  due : ∀ k, s.asker = .closing k → s.due = []
  empty : ∀ i, (s.pieces i).relay = []

section

variable {wanted} {s : Walkers n} {i : Fin n} {r : Relay.Threads RecordFile Side}
  {taker : TakerStage}

theorem due?_put {file : RecordFile} (h : s.due? = some (i, .put file)) : s.asker = .asking := by
  unfold due? at h
  cases hasker : s.asker with
  | asking => rfl
  | closing k =>
    simp only [hasker] at h
    split_ifs at h
    simp at h

theorem due?_close (h : s.due? = some (i, .close)) : s.asker = .closing i := by
  unfold due? at h
  cases hasker : s.asker with
  | asking => simp [hasker] at h
  | closing k =>
    simp only [hasker] at h
    split_ifs at h
    simp only [Option.some.injEq, Prod.mk.injEq, and_true] at h
    rw [← h]

theorem due?_take : s.due? ≠ some (i, .take) := by
  unfold due?
  cases s.asker with
  | asking => simp
  | closing k =>
    simp only
    split_ifs <;> simp

/-- The other thread of a relay is where it was, or was woken. -/
theorem stages_of_go {side other : Side} (hne : other ≠ side) (chosen : Side) (stage)
    (h : (Relay.monitor.step r (.go side chosen)).stages other = some stage) :
    ∃ stage', r.stages other = some stage' ∧
      ∀ notice result, stage = .leaving notice result → stage' = .leaving notice result := by
  rcases Monitor.stages_go_of_ne (m := Relay.monitor) (s := r) hne chosen with
    hsame | ⟨op, hslept, hwoken⟩
  · exact ⟨stage, hsame.symm.trans h, fun _ _ => id⟩
  · refine ⟨_, hslept, fun notice result hleaving => ?_⟩
    rw [hwoken] at h
    simp [← Option.some.inj h] at hleaving

/-- A step that changes neither what is in the relay nor who is about to return leaves a piece
sound. -/
theorem PieceSound.same (h : PieceSound s.asker s.due? i r taker)
    {r' : Relay.Threads RecordFile Side}
    (hheld : Relay.monitor.Held r') (hminded : Relay.monitor.Minded Relay.Settled r')
    (hcalls : Monitor.Calls (MayCall s.due? i) r') (hstate : r'.state = r.state)
    (hasks : r'.stages .asker ≠ none → ∃ call, s.due? = some (i, call))
    (htakes : r'.stages .taker ≠ none → taker = .taking)
    (hleaving : ∀ side notice result, r'.stages side = some (.leaving notice result) →
      ∃ notice', r.stages side = some (.leaving notice' result)) :
    PieceSound s.asker s.due? i r' taker where
  held := hheld
  minded := hminded
  calls := hcalls
  asks := hasks
  takes := htakes
  closed := by
    rw [hstate]
    exact h.closed
  shut := by
    rw [hstate]
    exact h.shut
  shuts notice result hl hclosing := by
    obtain ⟨notice', hl'⟩ := hleaving .asker notice result hl
    rw [hstate]
    exact h.shuts notice' result hl' hclosing
  ends notice result hl hnone := by
    obtain ⟨notice', hl'⟩ := hleaving .taker notice result hl
    rw [hstate]
    exact h.ends notice' result hl' hnone
  ended := by
    rw [hstate]
    exact h.ended

theorem PieceSound.wake (h : PieceSound s.asker s.due? i r taker) (side : Side) :
    PieceSound s.asker s.due? i (Relay.monitor.step r (.wake side)) taker := by
  have hstages := r.stages_rouse fun other => decide (other = side)
  have hin : ∀ other, (Relay.monitor.step r (.wake side)).stages other ≠ none →
      r.stages other ≠ none := by
    intro other hother hnone
    rcases hstages other with ⟨hsame, -⟩ | ⟨op, hslept, -⟩
    · exact hother (hsame.trans hnone)
    · simp [hnone] at hslept
  refine h.same (h.held.step _) (h.minded.step Relay.signals h.held _) (h.calls.step _ (by simp))
    rfl (fun hasker => h.asks (hin .asker hasker)) (fun htaker => h.takes (hin .taker htaker)) ?_
  intro other notice result hl
  rcases hstages other with ⟨hsame, -⟩ | ⟨op, -, -, hwoken⟩
  · exact ⟨notice, hsame.symm.trans hl⟩
  · exact absurd (Option.some.inj (hwoken.symm.trans hl)) (by simp)

theorem PieceSound.call (h : PieceSound s.asker s.due? i r taker) {side : Side}
    {call : RelayCall RecordFile}
    (hcall : MayCall s.due? i side call) (htaking : side = .taker → taker = .taking) :
    PieceSound s.asker s.due? i (Relay.monitor.step r (.call side call)) taker := by
  have hcalls := h.calls.step (m := Relay.monitor) (.call side call) fun other op heq => by
    obtain ⟨rfl, rfl⟩ := Monitor.Event.call.inj heq
    exact hcall
  have hstages : ∀ other stage, (Relay.monitor.step r (.call side call)).stages other = some stage →
      r.stages other = some stage ∨ other = side ∧ stage = .entering call := by
    intro other stage hstage
    simp only [Monitor.step] at hstage
    split_ifs at hstage with hidle
    · by_cases hother : other = side
      · subst hother
        rw [r.stages_comes] at hstage
        exact .inr ⟨rfl, (Option.some.inj hstage).symm⟩
      · exact .inl ((Monitor.Threads.stages_comes_of_ne hother _).symm.trans hstage)
    · exact .inl hstage
  have hin : ∀ other, (Relay.monitor.step r (.call side call)).stages other ≠ none →
      r.stages other ≠ none ∨ other = side := by
    intro other hother
    obtain ⟨stage, hstage⟩ := Option.ne_none_iff_exists'.mp hother
    exact (hstages other stage hstage).imp (fun hbefore => by simp [hbefore]) And.left
  refine h.same (h.held.step _) (h.minded.step Relay.signals h.held _) hcalls ?_ ?_ ?_ ?_
  · simp only [Monitor.step]
    split_ifs <;> rfl
  · rintro hasker
    rcases hin .asker hasker with hbefore | rfl
    · exact h.asks hbefore
    · exact ⟨call, hcall⟩
  · intro htaker
    rcases hin .taker htaker with hbefore | rfl
    · exact h.takes hbefore
    · exact htaking rfl
  · intro other notice result hl
    rcases hstages other _ hl with hbefore | ⟨-, hentering⟩
    · exact ⟨notice, hbefore⟩
    · exact absurd hentering (by simp)

/-- A piece whose relay the asking thread is not in does not depend on what it is to ask next. -/
theorem PieceSound.out (h : PieceSound s.asker s.due? i r taker) {s' : Walkers n}
    (hout : r.stages .asker = none)
    (hclosed : ∀ k, s.asker = .closing k → (i : ℕ) ≤ k →
      ∃ k', s'.asker = .closing k' ∧ (i : ℕ) ≤ k')
    (hshut : ∀ k, s'.asker = .closing k → (i : ℕ) < k → r.state.closed = true) :
    PieceSound s'.asker s'.due? i r taker where
  held := h.held
  minded := h.minded
  calls side stage call hstage hcall := by
    cases side with
    | asker => simp [hout] at hstage
    | taker => exact h.calls .taker stage call hstage hcall
  asks hin := absurd hout hin
  takes := h.takes
  closed hc := by
    obtain ⟨k, hk, hi⟩ := h.closed hc
    exact hclosed k hk hi
  shut := hshut
  shuts notice result hl := by simp [hout] at hl
  ends := h.ends
  ended := h.ended

/-- A step of the asking thread in a relay leaves its piece sound. -/
theorem PieceSound.askerGo (h : PieceSound s.asker s.due? i r taker) {stage}
    (hstage : r.stages .asker = some stage) (chosen : Side) :
    PieceSound s.asker s.due? i (Relay.monitor.step r (.go .asker chosen)) taker := by
  obtain ⟨call, hdue⟩ := h.asks (by simp [hstage])
  have hcalls := h.calls.step (m := Relay.monitor) (.go .asker chosen) (by simp)
  have hheld := h.held.step (.go .asker chosen)
  have hminded := h.minded.step Relay.signals h.held (.go .asker chosen)
  have htaker := stages_of_go (r := r) (show Side.taker ≠ Side.asker by decide) chosen
  have htakes : (Relay.monitor.step r (.go .asker chosen)).stages .taker ≠ none →
      taker = .taking := by
    intro hin
    obtain ⟨stage', hstage'⟩ := Option.ne_none_iff_exists'.mp hin
    obtain ⟨stage'', hstage'', -⟩ := htaker stage' hstage'
    exact h.takes (by simp [hstage''])
  have hends : ∀ notice result,
      (Relay.monitor.step r (.go .asker chosen)).stages .taker = some (.leaving notice result) →
        Relay.takes result = [] → r.state.closed = true ∧ r.state.slot = none := by
    intro notice result hleaving hnone
    obtain ⟨stage', hstage', hsame⟩ := htaker _ hleaving
    exact h.ends notice result (by rw [hstage', hsame notice result rfl]) hnone
  rcases Monitor.go_cases (m := Relay.monitor) hstage chosen with
    ⟨op, rfl, hstate, -, -⟩ | ⟨hstate, -, hgoes⟩
  · have hop : s.due? = some (i, op) := h.calls .asker _ op hstage rfl
    cases op with
    | take => exact absurd hop due?_take
    | put file =>
      have hasking := due?_put hop
      have hopen : r.state.closed = false := by
        by_contra hclosed
        obtain ⟨k, hk, -⟩ := h.closed (by simpa using hclosed)
        simp [hasking] at hk
      have hnot : ¬r.state.closed = true := by simp [hopen]
      refine ⟨hheld, hminded, hcalls, fun _ => ⟨_, hop⟩, htakes, ?_, ?_, ?_, ?_, ?_⟩
      · rw [hstate]
        exact h.closed
      · simp [hasking]
      · simp [hasking]
      · exact fun notice result hl hnone => absurd (hends notice result hl hnone).1 hnot
      · exact fun hended => absurd (h.ended hended).1 hnot
    | close =>
      have hclosing := due?_close hop
      have hclosed : (Relay.monitor.step r (.go .asker chosen)).state.closed = true := by
        rw [hstate]
        rfl
      have hslot : (Relay.monitor.step r (.go .asker chosen)).state.slot = r.state.slot := by
        rw [hstate]
        rfl
      refine ⟨hheld, hminded, hcalls, fun _ => ⟨_, hop⟩, htakes, fun _ => ⟨i, hclosing, le_rfl⟩,
        fun _ _ _ => hclosed, fun _ _ _ _ => hclosed, ?_, ?_⟩
      · exact fun notice result hl hnone => ⟨hclosed, hslot.trans (hends notice result hl hnone).2⟩
      · exact fun hended => ⟨hclosed, hslot.trans (h.ended hended).2⟩
  · refine ⟨hheld, hminded, hcalls, fun _ => ⟨_, hdue⟩, htakes, ?_, ?_, ?_, ?_, ?_⟩
    · rw [hstate]
      exact h.closed
    · rw [hstate]
      exact h.shut
    · rw [hstate]
      intro notice result hl hclosing
      rcases hgoes with ⟨stage', hstage', hpending, -⟩ | ⟨-, -, -, hnone, -⟩
      · -- It was leaving before: what it has to return it had to return then.
        obtain rfl := Option.some.inj (hstage'.symm.trans hl)
        cases stage with
        | leaving notice' result' => exact h.shuts notice' result' hstage hclosing
        | entering | inside | doing | asleep => simp [Monitor.Stage.pending] at hpending
      · simp [hnone] at hl
    · rw [hstate]
      exact hends
    · rw [hstate]
      exact h.ended

theorem ofTaken_ended {result : RelayAnswer RecordFile} (h : ofTaken [result] = .ended) :
    Relay.takes result = [] := by
  rcases result with - | - | file
  · rfl
  · rfl
  · simp [ofTaken] at h

/-- A step of a taker in its relay leaves its piece sound. -/
theorem PieceSound.takerGo (h : PieceSound s.asker s.due? i r .taking) {stage}
    (hstage : r.stages .taker = some stage) (chosen : Side) :
    PieceSound s.asker s.due? i (Relay.monitor.step r (.go .taker chosen))
      (ofTaken (Monitor.returns Relay.monitor .taker r (.go .taker chosen))) := by
  have hcalls := h.calls.step (m := Relay.monitor) (.go .taker chosen) (by simp)
  have hheld := h.held.step (.go .taker chosen)
  have hminded := h.minded.step Relay.signals h.held (.go .taker chosen)
  have hasker := stages_of_go (r := r) (show Side.asker ≠ Side.taker by decide) chosen
  have hasks : (Relay.monitor.step r (.go .taker chosen)).stages .asker ≠ none →
      ∃ call, s.due? = some (i, call) := by
    intro hin
    obtain ⟨stage', hstage'⟩ := Option.ne_none_iff_exists'.mp hin
    obtain ⟨stage'', hstage'', -⟩ := hasker stage' hstage'
    exact h.asks (by simp [hstage''])
  have hshuts : ∀ notice result,
      (Relay.monitor.step r (.go .taker chosen)).stages .asker = some (.leaving notice result) →
        s.asker = .closing i → r.state.closed = true := by
    intro notice result hleaving hclosing
    obtain ⟨stage', hstage', hsame⟩ := hasker _ hleaving
    exact h.shuts notice result (by rw [hstage', hsame notice result rfl]) hclosing
  rcases Monitor.go_cases (m := Relay.monitor) hstage chosen with
    ⟨op, rfl, hstate, hleaving, hreturns⟩ | ⟨hstate, -, hgoes⟩
  · obtain rfl : op = .take := h.calls .taker _ op hstage rfl
    have hclosed : (Relay.monitor.step r (.go .taker chosen)).state.closed = r.state.closed := by
      rw [hstate]
      rfl
    rw [hreturns]
    refine ⟨hheld, hminded, hcalls, hasks, fun _ => rfl, ?_, ?_, ?_, ?_, by simp [ofTaken]⟩
    · rw [hclosed]
      exact h.closed
    · rw [hclosed]
      exact h.shut
    · rw [hclosed]
      exact hshuts
    · intro notice result hl hnone
      obtain ⟨-, rfl⟩ := Monitor.Stage.leaving.inj (Option.some.inj (hleaving.symm.trans hl))
      have hslot : r.state.slot = none := by
        simpa [Relay.monitor, Relay.result, Relay.takes] using hnone
      -- It did not have to wait, and there was no file.
      have hready : Relay.monitor.ready .take r.state = true := by
        have hthread := h.held .taker
        rw [hstage] at hthread
        exact hthread.2
      refine ⟨hclosed.trans ?_, by rw [hstate]; rfl⟩
      simpa [Monitor.ready, Relay.monitor, Relay.waitsOn, Relay.opens, hslot] using hready
  · have hends : ∀ notice result, stage = .leaving notice result → Relay.takes result = [] →
        r.state.closed = true ∧ r.state.slot = none :=
      fun notice result hleaving => h.ends notice result (hstage.trans (congrArg some hleaving))
    refine ⟨hheld, hminded, hcalls, hasks, ?_, ?_, ?_, ?_, ?_, ?_⟩
    · intro hin
      rcases hgoes with ⟨-, -, -, hreturns⟩ | ⟨-, -, -, hout, -⟩
      · rw [hreturns]
        rfl
      · exact absurd hout hin
    · rw [hstate]
      exact h.closed
    · rw [hstate]
      exact h.shut
    · rw [hstate]
      exact hshuts
    · rw [hstate]
      intro notice result hl hnone
      rcases hgoes with ⟨stage', hstage', hpending, -⟩ | ⟨-, -, -, hout, -⟩
      · obtain rfl := Option.some.inj (hstage'.symm.trans hl)
        cases stage with
        | leaving notice' result' =>
          obtain rfl : result = result' := by simpa [Monitor.Stage.pending] using hpending
          exact hends notice' result rfl hnone
        | entering | inside | doing | asleep => simp [Monitor.Stage.pending] at hpending
      · simp [hout] at hl
    · rw [hstate]
      intro hended
      rcases hgoes with ⟨-, -, -, hreturns⟩ | ⟨notice, result, hleaving, -, hreturns⟩
      · simp [hreturns, ofTaken] at hended
      · rw [hreturns] at hended
        exact hends notice result hleaving (ofTaken_ended hended)

theorem Sound.relayStep (h : s.Sound) (i : Fin n) (e : Relay.Event RecordFile Side)
    (stage : TakerStage)
    (hpiece : PieceSound s.asker s.due? i (Relay.monitor.step (s.relays i) e) stage) :
    ((s.relayStep i e).setTaker i stage).Sound where
  pieces j := by
    show PieceSound s.asker s.due? j (Function.update s.relays i _ j)
      (Function.update s.takers i stage j)
    by_cases hj : j = i
    · subst hj
      rw [Function.update_self, Function.update_self]
      exact hpiece
    · rw [Function.update_of_ne hj, Function.update_of_ne hj]
      exact h.pieces j
  due := h.due
  empty := h.empty

theorem Sound.relayStep_same (h : s.Sound) (i : Fin n) (e : Relay.Event RecordFile Side)
    (hpiece : PieceSound s.asker s.due? i (Relay.monitor.step (s.relays i) e) (s.takers i)) :
    (s.relayStep i e).Sound := by
  have hsame : (s.relayStep i e).setTaker i (s.takers i) = s.relayStep i e := by
    simp [setTaker, Walkers.relayStep]
  rw [← hsame]
  exact h.relayStep i e (s.takers i) hpiece

theorem relays_relayStep (s : Walkers n) (i : Fin n) (e : Relay.Event RecordFile Side) :
    (s.relayStep i e).relays i = Relay.monitor.step (s.relays i) e :=
  Function.update_self ..

/-- The asking thread is in no relay but the one it is to call. -/
theorem Sound.out_of_ne (h : s.Sound) {i j : Fin n} {call : RelayCall RecordFile}
    (hdue : s.due? = some (i, call)) (hj : j ≠ i) : (s.relays j).stages .asker = none := by
  by_contra hin
  obtain ⟨call', hdue'⟩ := (h.pieces j).asks hin
  obtain ⟨rfl, -⟩ := Prod.mk.inj (Option.some.inj (hdue.symm.trans hdue'))
  exact hj rfl

theorem Sound.returned (h : s.Sound) {i : Fin n} {call : RelayCall RecordFile}
    (hdue : s.due? = some (i, call)) (hout : (s.relays i).stages .asker = none)
    (hclosed : s.asker = .closing i → (s.relays i).state.closed = true) : s.returned.Sound := by
  have houts : ∀ j, (s.relays j).stages .asker = none := by
    intro j
    by_cases hj : j = i
    · rw [hj]
      exact hout
    · exact h.out_of_ne hdue hj
  cases hasker : s.asker with
  | asking =>
    have hreturned : s.returned = { s with due := s.due.tail } := by simp [Walkers.returned, hasker]
    rw [hreturned]
    refine ⟨fun j => (h.pieces j).out (houts j) ?_ ?_, ?_, h.empty⟩
    · simp [hasker]
    · simp [hasker]
    · simp [hasker]
  | closing k =>
    have hreturned : s.returned = { s with asker := .closing (k + 1) } := by
      simp [Walkers.returned, hasker]
    have hk : k = i := by
      have hthis := hdue
      simp only [due?, hasker] at hthis
      split_ifs at hthis
      simp only [Option.some.injEq, Prod.mk.injEq] at hthis
      rw [← hthis.1]
    rw [hreturned]
    refine ⟨fun j => (h.pieces j).out (houts j) (fun k' hk' hj => ?_) (fun k' hk' hj => ?_), ?_,
      h.empty⟩
    · rw [hasker] at hk'
      obtain rfl := AskerStage.closing.inj hk'
      exact ⟨k + 1, rfl, by omega⟩
    · obtain rfl := AskerStage.closing.inj hk'
      rcases Nat.lt_succ_iff_lt_or_eq.mp hj with hlt | heq
      · exact (h.pieces j).shut k hasker hlt
      · obtain rfl : j = i := Fin.ext (heq.trans hk)
        exact hclosed (by rw [hasker, hk])
    · exact fun k' _ => h.due k hasker

theorem Sound.askerStep (h : s.Sound) (chosen : Side) : (s.askerStep chosen).Sound := by
  unfold Walkers.askerStep
  cases hdue : s.due? with
  | none => exact h
  | some next =>
    obtain ⟨i, call⟩ := next
    simp only
    split_ifs with hin hstays
    · obtain ⟨stage, hstage⟩ := Option.isSome_iff_exists.mp hin
      exact h.relayStep_same i _ ((h.pieces i).askerGo hstage chosen)
    · obtain ⟨stage, hstage⟩ := Option.isSome_iff_exists.mp hin
      have hgone := h.relayStep_same i _ ((h.pieces i).askerGo hstage chosen)
      have hout : (Relay.monitor.step (s.relays i) (.go .asker chosen)).stages .asker = none := by
        simpa [isIn, relays_relayStep] using hstays
      refine hgone.returned hdue ?_ fun hclosing => ?_
      · rw [relays_relayStep]
        exact hout
      · -- It has returned, so it was about to.
        rw [relays_relayStep]
        rcases Monitor.go_cases (m := Relay.monitor) hstage chosen with
          ⟨op, -, -, hleaving, -⟩ | ⟨hstate, -, ⟨stage', hstage', -⟩ | ⟨notice, result, rfl, -⟩⟩
        · simp [hout] at hleaving
        · simp [hout] at hstage'
        · rw [hstate]
          exact (h.pieces i).shuts notice result hstage hclosing
    · exact h.relayStep_same i _ ((h.pieces i).call hdue (by simp))

/-- Where the asking thread is asked to go on, it is in no relay. -/
theorem Sound.out (h : s.Sound) (hasking : s.asker = .asking) (hdue : s.due = []) (i : Fin n) :
    (s.relays i).stages .asker = none := by
  by_contra hin
  obtain ⟨call, hcall⟩ := (h.pieces i).asks hin
  simp [due?, hasking, hdue] at hcall

theorem Sound.setTaker (h : s.Sound) (i : Fin n) {stage : TakerStage}
    (hstage : ∀ stage', s.takers i = stage' → stage' ≠ .taking) (hended : stage ≠ .ended) :
    (s.setTaker i stage).Sound where
  pieces j := by
    show PieceSound s.asker s.due? j (s.relays j) (Function.update s.takers i stage j)
    have hj := h.pieces j
    by_cases hne : j = i
    · subst hne
      rw [Function.update_self]
      exact { hj with
        takes := fun hin => absurd (hj.takes hin) (hstage _ rfl)
        ended := fun hend => absurd hend hended }
    · rw [Function.update_of_ne hne]
      exact hj
  due := h.due
  empty := h.empty

theorem Sound.step (h : s.Sound) (e : WalkersEvent n) : (s.step wanted e).Sound := by
  cases e with
  | ask sources =>
    simp only [Walkers.step]
    cases hasker : s.asker with
    | closing k => exact h
    | asking =>
      simp only
      split_ifs with hdue
      · refine ⟨fun i => (h.pieces i).out (h.out hasker hdue i) ?_ ?_, ?_, fun _ => rfl⟩
        · exact fun k hk hi => ⟨k, hk, hi⟩
        · exact (h.pieces i).shut
        · exact fun k hk => absurd (hasker.symm.trans hk) (by simp)
      · exact h
  | finish =>
    simp only [Walkers.step]
    cases hasker : s.asker with
    | closing k => exact h
    | asking =>
      simp only
      split_ifs with hdue
      · refine ⟨fun i => (h.pieces i).out (h.out hasker hdue i) ?_ ?_, fun _ _ => hdue, h.empty⟩
        · simp [hasker]
        · intro k hk hlt
          obtain rfl := AskerStage.closing.inj hk
          omega
      · exact h
  | asker chosen => exact h.askerStep chosen
  | taker i chosen throws =>
    simp only [Walkers.step]
    cases htaker : s.takers i with
    | taking =>
      have hpiece := h.pieces i
      rw [htaker] at hpiece
      simp only [takerStep]
      split_ifs with hin
      · obtain ⟨stage, hstage⟩ := Option.isSome_iff_exists.mp hin
        exact h.relayStep i _ _ (hpiece.takerGo hstage chosen)
      · exact h.relayStep_same i _ ((h.pieces i).call rfl fun _ => htaker)
    | looking file =>
      simp only [takerStep]
      refine h.setTaker i (by simp [htaker]) ?_
      split_ifs <;> simp
    | storing file =>
      have hset : (s.setTaker i .taking).Sound := h.setTaker i (by simp [htaker]) (by simp)
      exact ⟨hset.pieces, hset.due, hset.empty⟩
    | ended => exact h
  | wake i side => exact h.relayStep_same i _ ((h.pieces i).wake side)

/-! ### The queues -/

theorem relays_relayStep_of_ne {i j : Fin n} (hj : j ≠ i) (e : Relay.Event RecordFile Side) :
    (s.relayStep i e).relays j = s.relays j :=
  Function.update_of_ne hj ..

/-- Where neither the taker nor the slot has more or less, a queue is what it was. -/
theorem queue_same {i : Fin n} {e : Relay.Event RecordFile Side} {s' : Walkers n}
    (hrelays : s'.relays = (s.relayStep i e).relays) (htakers : s'.takers = s.takers)
    (hslot : (Relay.monitor.step (s.relays i) e).state.slot = (s.relays i).state.slot)
    (htaker : (Relay.monitor.step (s.relays i) e).pending .taker = (s.relays i).pending .taker)
    (hunput : s'.unput = s.unput) (j : Fin n) : s'.queue j = s.queue j := by
  unfold queue inHand
  rw [hunput, hrelays, htakers]
  by_cases hj : j = i
  · rw [hj, relays_relayStep, htaker, hslot]
  · rw [relays_relayStep_of_ne hj]

/-- Where the asking thread has nothing more or less to return, the same files are still to be
put. -/
theorem unput_relayStep {i : Fin n} {e : Relay.Event RecordFile Side}
    (h : (Relay.monitor.step (s.relays i) e).pending .asker = (s.relays i).pending .asker) :
    (s.relayStep i e).unput = s.unput := by
  have hpending :
      ∀ j, ((s.relayStep i e).relays j).pending .asker = (s.relays j).pending .asker := by
    intro j
    by_cases hj : j = i
    · rw [hj, relays_relayStep, h]
    · rw [relays_relayStep_of_ne hj]
  have hdue : (s.relayStep i e).due = s.due := rfl
  simp only [unput, hdue, hpending]

theorem queue_call (s : Walkers n) (i : Fin n) (side : Side) (call : RelayCall RecordFile)
    (j : Fin n) : (s.relayStep i (.call side call)).queue j = s.queue j := by
  have hpending : ∀ other, (Relay.monitor.step (s.relays i) (.call side call)).pending other =
      (s.relays i).pending other := by
    intro other
    simpa [Monitor.answers, Monitor.returns] using
      (Monitor.pending_step (m := Relay.monitor) (s.relays i) other (.call side call)).symm
  refine queue_same rfl rfl ?_ (hpending .taker) (unput_relayStep (hpending .asker)) j
  simp only [Monitor.step]
  split_ifs <;> rfl

theorem queue_wake (s : Walkers n) (i : Fin n) (side : Side) (j : Fin n) :
    (s.relayStep i (.wake side)).queue j = s.queue j := by
  have hpending : ∀ other, (Relay.monitor.step (s.relays i) (.wake side)).pending other =
      (s.relays i).pending other := fun other => Monitor.pending_rouse (s.relays i) _ other
  exact queue_same rfl rfl rfl (hpending .taker) (unput_relayStep (hpending .asker)) j

theorem pending_go_of_ne {side other : Side} (hne : other ≠ side) (chosen : Side) :
    (Relay.monitor.step r (.go side chosen)).pending other = r.pending other := by
  simpa [Monitor.answers, Monitor.returns, hne.symm] using
    (Monitor.pending_step (m := Relay.monitor) r other (.go side chosen)).symm

theorem due?_eq_put {file : RecordFile} (h : s.due? = some (i, .put file)) :
    ∃ rest, s.due = (i, file) :: rest := by
  have hasking := due?_put h
  cases hdue : s.due with
  | nil => simp [due?, hasking, hdue] at h
  | cons next rest =>
    simp only [due?, hasking, hdue, List.head?_cons, Option.map_some, Option.some.injEq,
      Prod.mk.injEq, RelayCall.put.injEq] at h
    exact ⟨rest, by rw [← h.1, ← h.2]⟩

/-- A file that is put goes from the asking thread's hands into the slot. -/
theorem queue_put {i : Fin n} {file : RecordFile} {rest : List (Fin n × RecordFile)}
    {e : Relay.Event RecordFile Side} (hdue : s.due = (i, file) :: rest)
    (hbefore : (s.relays i).pending .asker = [])
    (hafter : (Relay.monitor.step (s.relays i) e).pending .asker ≠ [])
    (hslot : (s.relays i).state.slot = none)
    (hput : (Relay.monitor.step (s.relays i) e).state.slot = some file)
    (htaker : (Relay.monitor.step (s.relays i) e).pending .taker = (s.relays i).pending .taker)
    (j : Fin n) : (s.relayStep i e).queue j = s.queue j := by
  have hunput : s.unput = (i, file) :: rest := by simp [unput, hdue, hbefore]
  have hleft : (s.relayStep i e).unput = rest := by
    unfold unput
    rw [show (s.relayStep i e).due = (i, file) :: rest from hdue]
    simp [relays_relayStep, hafter]
  unfold queue
  rw [hunput, hleft]
  by_cases hj : j = i
  · subst hj
    have hhand : (s.relayStep j e).inHand j = s.inHand j := by
      unfold inHand
      rw [relays_relayStep, htaker]
      rfl
    rw [hhand, relays_relayStep, hput, hslot]
    simp
  · have hhand : (s.relayStep i e).inHand j = s.inHand j := by
      unfold inHand
      rw [relays_relayStep_of_ne hj]
      rfl
    rw [hhand, relays_relayStep_of_ne hj]
    simp [Ne.symm hj]

theorem relays_returned (s : Walkers n) : s.returned.relays = s.relays := by
  unfold Walkers.returned
  split <;> rfl

theorem takers_returned (s : Walkers n) : s.returned.takers = s.takers := by
  unfold Walkers.returned
  split <;> rfl

/-- Nothing the asking thread does changes what waits to be taken in. -/
theorem Sound.queue_askerStep (h : s.Sound) (chosen : Side) (j : Fin n) :
    (s.askerStep chosen).queue j = s.queue j := by
  unfold Walkers.askerStep
  cases hdue : s.due? with
  | none => rfl
  | some next =>
    obtain ⟨i, call⟩ := next
    simp only
    by_cases hin : s.isIn i .asker = true
    · obtain ⟨stage, hstage⟩ := Option.isSome_iff_exists.mp hin
      have htaker :=
        pending_go_of_ne (r := s.relays i) (show Side.taker ≠ Side.asker by decide) chosen
      have hbefore : (s.relays i).pending .asker = stage.pending := by
        simp [Monitor.Threads.pending, hstage]
      rw [if_pos hin]
      rcases Monitor.go_cases (m := Relay.monitor) hstage chosen with
        ⟨op, rfl, hstate, hleaving, -⟩ |
          ⟨hstate, -, ⟨stage', hstage', hsame, -⟩ | ⟨notice, result, rfl, hout, -⟩⟩
      · have hstays : (s.relayStep i (.go .asker chosen)).isIn i .asker = true := by
          simp [isIn, relays_relayStep, hleaving]
        have hafter :
            (Relay.monitor.step (s.relays i) (.go .asker chosen)).pending .asker ≠ [] := by
          simp [Monitor.Threads.pending, hleaving, Monitor.Stage.pending]
        rw [if_pos hstays]
        have hop : s.due? = some (i, op) := (h.pieces i).calls .asker _ op hstage rfl
        cases op with
        | take => exact absurd hop due?_take
        | put file =>
          obtain ⟨rest, hrest⟩ := due?_eq_put hop
          -- It did not have to wait, so the slot was free.
          have hready : Relay.monitor.ready (.put file) (s.relays i).state = true := by
            have hthread := (h.pieces i).held .asker
            rw [hstage] at hthread
            exact hthread.2
          refine queue_put hrest hbefore hafter ?_ (by rw [hstate]; rfl) htaker j
          simpa [Monitor.ready, Relay.monitor, Relay.waitsOn, Relay.opens] using hready
        | close =>
          have hdone : s.due = [] := h.due i (due?_close hop)
          refine queue_same rfl rfl (by rw [hstate]; rfl) htaker ?_ j
          have hnone : (s.relayStep i (.go .asker chosen)).due = [] := hdone
          simp [unput, hdone, hnone]
      · have hstays : (s.relayStep i (.go .asker chosen)).isIn i .asker = true := by
          simp [isIn, relays_relayStep, hstage']
        rw [if_pos hstays]
        refine queue_same rfl rfl (by rw [hstate]) htaker (unput_relayStep ?_) j
        rw [hbefore, ← hsame]
        simp [Monitor.Threads.pending, hstage']
      · have hleaves : (s.relayStep i (.go .asker chosen)).isIn i .asker = false := by
          simp [isIn, relays_relayStep, hout]
        rw [if_neg (by simp [hleaves])]
        refine queue_same (e := .go .asker chosen) (relays_returned _) (takers_returned _)
          (by rw [hstate]) htaker ?_ j
        cases call with
        | take => exact absurd hdue due?_take
        | put file =>
          obtain ⟨rest, hrest⟩ := due?_eq_put hdue
          have hasking : s.asker = .asking := due?_put hdue
          have hreturned : (s.relayStep i (.go .asker chosen)).returned.due = rest := by
            simp [Walkers.returned, hasking, Walkers.relayStep, hrest]
          have hunput : s.unput = rest := by
            simp [unput, hrest, hbefore, Monitor.Stage.pending]
          -- The asking thread is in no relay now.
          have hnone : ∀ k, ((s.relayStep i (.go .asker chosen)).returned.relays k).pending .asker =
              [] := by
            intro k
            rw [relays_returned, Monitor.Threads.pending]
            by_cases hk : k = i
            · rw [hk, relays_relayStep, hout]
              rfl
            · rw [relays_relayStep_of_ne hk, h.out_of_ne hdue hk]
              rfl
          rw [hunput]
          unfold unput
          rw [hreturned]
          cases rest with
          | nil => rfl
          | cons next rest => simp [hnone]
        | close =>
          have hclosing : s.asker = .closing i := due?_close hdue
          have hdone : s.due = [] := h.due i (due?_close hdue)
          have hnone : (s.relayStep i (.go .asker chosen)).returned.due = [] := by
            simp [Walkers.returned, hclosing, Walkers.relayStep, hdone]
          simp [unput, hdone, hnone]
    · rw [if_neg hin]
      exact queue_call s i .asker call j

theorem handOf_ofTaken (result : RelayAnswer RecordFile) :
    handOf [] (ofTaken [result]) = Relay.takes result := by
  rcases result with - | - | file <;> rfl

/-- What a taker takes goes from the slot into its hands. -/
theorem Sound.queue_takerGo (h : s.Sound) {i : Fin n} (htaking : s.takers i = .taking) {stage}
    (hstage : (s.relays i).stages .taker = some stage) (chosen : Side) (j : Fin n) :
    ((s.relayStep i (.go .taker chosen)).setTaker i
      (ofTaken (Monitor.returns Relay.monitor .taker (s.relays i) (.go .taker chosen)))).queue j =
        s.queue j := by
  have hasker := pending_go_of_ne (r := s.relays i) (show Side.asker ≠ Side.taker by decide) chosen
  have hunput : ((s.relayStep i (.go .taker chosen)).setTaker i
      (ofTaken (Monitor.returns Relay.monitor .taker (s.relays i) (.go .taker chosen)))).unput =
        s.unput := unput_relayStep hasker
  unfold queue inHand
  rw [hunput]
  by_cases hj : j = i
  · subst hj
    have hpending : (s.relays j).pending .taker = stage.pending := by
      simp [Monitor.Threads.pending, hstage]
    have hrelay : ((s.relayStep j (.go .taker chosen)).setTaker j (ofTaken
        (Monitor.returns Relay.monitor .taker (s.relays j) (.go .taker chosen)))).relays j =
          Relay.monitor.step (s.relays j) (.go .taker chosen) := relays_relayStep s j _
    have htaker : ((s.relayStep j (.go .taker chosen)).setTaker j (ofTaken
        (Monitor.returns Relay.monitor .taker (s.relays j) (.go .taker chosen)))).takers j =
          ofTaken (Monitor.returns Relay.monitor .taker (s.relays j) (.go .taker chosen)) :=
      Function.update_self ..
    rw [hrelay, htaker, htaking, hpending]
    congr 1
    rcases Monitor.go_cases (m := Relay.monitor) hstage chosen with
      ⟨op, rfl, hstate, hleaving, hreturns⟩ |
        ⟨hstate, -, ⟨stage', hstage', hsame, hreturns⟩ | ⟨notice, result, rfl, hout, hreturns⟩⟩
    · obtain rfl : op = .take := (h.pieces j).calls .taker _ op hstage rfl
      rw [hreturns, hstate, Monitor.Threads.pending, hleaving]
      simp [ofTaken, handOf, Monitor.Stage.pending, Relay.monitor, Relay.result, Relay.takes,
        Relay.act]
    · have hafter : (Relay.monitor.step (s.relays j) (.go .taker chosen)).pending .taker =
          stage.pending := by
        simp [Monitor.Threads.pending, hstage', hsame]
      rw [hreturns, hstate, hafter]
      rfl
    · have hafter : (Relay.monitor.step (s.relays j) (.go .taker chosen)).pending .taker = [] := by
        simp [Monitor.Threads.pending, hout]
      rw [hreturns, hstate, hafter, handOf_ofTaken]
      simp [handOf, Monitor.Stage.pending]
  · have hrelay : ((s.relayStep i (.go .taker chosen)).setTaker i (ofTaken
        (Monitor.returns Relay.monitor .taker (s.relays i) (.go .taker chosen)))).relays j =
          s.relays j := relays_relayStep_of_ne hj _
    have htaker : ((s.relayStep i (.go .taker chosen)).setTaker i (ofTaken
        (Monitor.returns Relay.monitor .taker (s.relays i) (.go .taker chosen)))).takers j =
          s.takers j := Function.update_of_ne hj ..
    rw [hrelay, htaker]

/-! ### A step of the threads -/

/-- What an answer brings comes behind what waits already. -/
theorem carry_relay (reading : Reading) (hempty : reading.relay = []) (queue : List RecordFile)
    (answer : Except Response FileAnswer) :
    carry { reading with relay := queue } answer =
      { carry reading answer with relay := queue ++ (carry reading answer).relay } := by
  cases answer with
  | error refusal => simp [carry, hempty]
  | ok answer =>
    simp only [carry, hempty]
    split_ifs
    · simp
    · cases Base64.decode answer.next with
      | none => simp
      | some next =>
        dsimp only
        split_ifs <;> simp

theorem flatMap_single {α β : Type*} [DecidableEq α] {l : List α} (hl : l.Nodup) {a : α}
    (ha : a ∈ l) (f : α → List β) : (l.flatMap fun b => if b = a then f b else []) = f a := by
  induction l with
  | nil => simp at ha
  | cons b l ih =>
    obtain ⟨hb, hl⟩ := List.nodup_cons.mp hl
    rw [List.flatMap_cons]
    by_cases hba : b = a
    · subst hba
      have hrest : (l.flatMap fun c => if c = b then f c else []) = [] := by
        refine List.flatMap_eq_nil_iff.mpr fun c hc => if_neg ?_
        rintro rfl
        exact hb hc
      rw [if_pos rfl, hrest, List.append_nil]
    · rw [if_neg hba, List.nil_append]
      exact ih hl ((List.mem_cons.mp ha).resolve_left (Ne.symm hba))

/-- Of the files of a fan out each piece has its own. -/
theorem filterMap_due (relay : Fin n → List RecordFile) (i : Fin n) :
    (((List.finRange n).flatMap fun j => (relay j).map (Prod.mk j)).filterMap fun next =>
      if next.1 = i then some next.2 else none) = relay i := by
  have hone : ∀ j, ((relay j).map (Prod.mk j)).filterMap (fun next =>
      if next.1 = i then some next.2 else none) = if j = i then relay j else [] := by
    intro j
    rw [List.filterMap_map]
    split_ifs with hj
    · simp [hj]
    · simp [hj]
  rw [List.filterMap_flatMap]
  simp only [hone]
  exact flatMap_single (List.nodup_finRange n) (List.mem_finRange i) relay

/-- A file that is taken in is the first of those that wait. -/
theorem Sound.queue_setTaker (h : s.Sound) {i : Fin n} {file : RecordFile}
    (hfile : s.takers i = .looking file ∨ s.takers i = .storing file) (j : Fin n) :
    s.queue j = (if j = i then [file] else []) ++ (s.setTaker i .taking).queue j := by
  have hunput : (s.setTaker i .taking).unput = s.unput := rfl
  unfold queue inHand
  rw [hunput]
  by_cases hj : j = i
  · subst hj
    have hout : (s.relays j).stages .taker = none := by
      by_contra hin
      have htaking := (h.pieces j).takes hin
      rcases hfile with hfile | hfile <;> simp [hfile] at htaking
    have hnow : (s.setTaker j .taking).takers j = .taking := Function.update_self ..
    have hrelay : (s.setTaker j .taking).relays j = s.relays j := rfl
    have hhand : handOf ((s.relays j).pending .taker) (s.takers j) = [file] := by
      rcases hfile with hfile | hfile <;> rw [hfile] <;> rfl
    rw [if_pos rfl, hnow, hrelay, hhand]
    simp [handOf, Monitor.Threads.pending, hout]
  · have hnow : (s.setTaker i .taking).takers j = s.takers j := Function.update_of_ne hj ..
    rw [if_neg hj, hnow]
    rfl

theorem queue_storing {i : Fin n} {file : RecordFile} (htaker : s.takers i = .looking file)
    (j : Fin n) : (s.setTaker i (.storing file)).queue j = s.queue j := by
  have hhand : (s.setTaker i (.storing file)).inHand j = s.inHand j := by
    show handOf ((s.relays j).pending .taker) (Function.update s.takers i _ j) = _
    by_cases hj : j = i
    · rw [hj, Function.update_self, inHand, htaker]
      rfl
    · rw [Function.update_of_ne hj, inHand]
  simp only [queue, hhand]
  rfl

/-- A step that the walk knows nothing of. -/
theorem Walks.silent {t : Transfer n} (hwalks : s.Walks t) {s' : Walkers n}
    (hpieces : s'.pieces = s.pieces) (hqueue : ∀ i, s'.queue i = s.queue i)
    (hfailed : s'.failed = s.failed) (hhanded : s'.handed = s.handed) : s'.Walks t where
  pieces i := by rw [hwalks.pieces, hpieces, hqueue]
  failed := by rw [hwalks.failed, hfailed]
  handed := by
    rw [hfailed, hhanded]
    exact hwalks.handed

theorem askerStep_same (s : Walkers n) (chosen : Side) :
    (s.askerStep chosen).pieces = s.pieces ∧ (s.askerStep chosen).failed = s.failed ∧
      (s.askerStep chosen).handed = s.handed := by
  have hreturned : ∀ s : Walkers n, s.returned.pieces = s.pieces ∧ s.returned.failed = s.failed ∧
      s.returned.handed = s.handed := by
    intro s
    unfold Walkers.returned
    split <;> exact ⟨rfl, rfl, rfl⟩
  unfold Walkers.askerStep
  split
  · exact ⟨rfl, rfl, rfl⟩
  · dsimp only
    split_ifs
    · exact ⟨rfl, rfl, rfl⟩
    · exact hreturned _
    · exact ⟨rfl, rfl, rfl⟩

/-- A taker takes in the first of the files that wait, and may fail to. -/
theorem Walks.take (wanted : Share) {t : Transfer n} (hwalks : s.Walks t) {s' : Walkers n}
    {i : Fin n} {file : RecordFile} {throws : Bool} (hpieces : s'.pieces = s.pieces)
    (hqueue : ∀ j, s.queue j = (if j = i then [file] else []) ++ s'.queue j)
    (hfailed : s'.failed = (s.failed || throws))
    (hhanded : s.failed = false → s'.handed = s.handed ++ [file]) :
    s'.Walks (t.step wanted (.take i throws)) := by
  have hrelay : (t.pieces i).relay = file :: s'.queue i := by
    rw [hwalks.pieces, hqueue, if_pos rfl]
    rfl
  have hupdated : ∀ j, Function.update t.pieces i { t.pieces i with relay := s'.queue i } j =
      { s'.pieces j with relay := s'.queue j } := by
    intro j
    by_cases hj : j = i
    · subst hj
      rw [Function.update_self, hwalks.pieces, hpieces]
    · rw [Function.update_of_ne hj, hwalks.pieces, hpieces, hqueue, if_neg hj, List.nil_append]
  simp only [Transfer.step, hrelay]
  rw [hwalks.failed]
  cases hbefore : s.failed with
  | true =>
    refine ⟨hupdated, ?_, ?_⟩
    · simp [hfailed, hbefore]
    · simp [hfailed, hbefore]
  | false =>
    refine ⟨hupdated, ?_, fun _ => ?_⟩
    · simp [hfailed, hbefore]
    · simp [hhanded hbefore, hwalks.handed hbefore]

/-- What a fan out brings comes behind what waits. -/
theorem Sound.queue_asked (h : s.Sound) (hasker : s.asker = .asking) (hdue : s.due = [])
    (sources : Fin n → Except Response Store) (i : Fin n) :
    (s.asked wanted sources).queue i = s.queue i ++ (s.answered wanted sources i).relay := by
  have hnone : s.unput = [] := by simp [unput, hdue]
  have hunput : (s.asked wanted sources).unput = (s.asked wanted sources).due := by
    unfold unput
    split
    · next hempty => exact hempty.symm
    · next next rest hnext =>
      have hidle : ((s.asked wanted sources).relays next.1).pending .asker = [] := by
        show (s.relays next.1).pending .asker = []
        simp [Monitor.Threads.pending, h.out hasker hdue next.1]
      rw [if_pos hidle, hnext]
  unfold queue
  rw [hunput, hnone, asked, filterMap_due]
  simp [inHand]

theorem Walks.ask {t : Transfer n} (h : s.Sound) (hwalks : s.Walks t)
    (sources : Fin n → Except Response Store) :
    (s.step wanted (.ask sources)).Walks
      (run (Transfer.step wanted) t (s.effects (.ask sources))) := by
  simp only [Walkers.step, effects]
  cases hasker : s.asker with
  | closing k => exact hwalks
  | asking =>
    simp only
    split_ifs with hdue
    · refine ⟨fun i => ?_, hwalks.failed, hwalks.handed⟩
      rw [h.queue_asked hasker hdue]
      simp only [run_cons, run_nil, Transfer.step, hwalks.pieces, asked]
      unfold answered
      split_ifs with hgoing
      · rw [carry_relay _ (h.empty i)]
      · rw [h.empty i, List.append_nil]
    · exact hwalks

/-- **What a step of the threads comes to.** -/
theorem Walks.step {t : Transfer n} (h : s.Sound) (hwalks : s.Walks t) (e : WalkersEvent n) :
    (s.step wanted e).Walks (run (Transfer.step wanted) t (s.effects e)) := by
  cases e with
  | ask sources => exact hwalks.ask h sources
  | finish =>
    simp only [Walkers.step, effects]
    cases s.asker with
    | closing k => exact hwalks
    | asking =>
      simp only
      split_ifs
      · exact hwalks.silent rfl (fun _ => rfl) rfl rfl
      · exact hwalks
  | asker chosen =>
    obtain ⟨hpieces, hfailed, hhanded⟩ := askerStep_same s chosen
    exact hwalks.silent hpieces (h.queue_askerStep chosen) hfailed hhanded
  | wake i side => exact hwalks.silent rfl (queue_wake s i side) rfl rfl
  | taker i chosen throws =>
    simp only [Walkers.step, effects]
    cases htaker : s.takers i with
    | taking =>
      simp only [takerStep]
      split_ifs with hin
      · obtain ⟨stage, hstage⟩ := Option.isSome_iff_exists.mp hin
        exact hwalks.silent rfl (h.queue_takerGo htaker hstage chosen) rfl rfl
      · exact hwalks.silent rfl (queue_call s i .taker .take) rfl rfl
    | looking file =>
      simp only [takerStep]
      cases hfailed : s.failed with
      | true =>
        rw [if_pos rfl, if_pos rfl]
        refine hwalks.take wanted rfl (h.queue_setTaker (.inl htaker)) ?_
          (by simp [hfailed])
        simp [setTaker, hfailed]
      | false =>
        rw [if_neg (by simp), if_neg (by simp)]
        exact hwalks.silent rfl (queue_storing htaker) rfl rfl
    | storing file =>
      exact hwalks.take wanted rfl (h.queue_setTaker (.inr htaker)) rfl fun _ => rfl
    | ended => exact hwalks

/-! ### The end of a walk -/

theorem sound_start (points : List Bytes) : (start points).Sound where
  pieces i := by
    refine ⟨Monitor.held_start _, Monitor.minded_start _, ?_, ?_, ?_, ?_, ?_, ?_, ?_, ?_⟩ <;>
      simp [start, Monitor.Calls]
  due := by simp [start]
  empty _ := rfl

theorem walks_start (points : List Bytes) : (start points).Walks (Transfer.start points) where
  pieces i := by simp [start, Transfer.start, queue, inHand, unput, handOf, Monitor.Threads.pending]
  failed := rfl
  handed _ := rfl

/-- Nothing is left to be taken in once the takers are joined. -/
theorem Sound.queue_of_isOver (h : s.Sound) (hover : s.isOver = true) (i : Fin n) :
    s.queue i = [] := by
  unfold isOver at hover
  cases hasker : s.asker with
  | asking => simp [hasker] at hover
  | closing k =>
    simp only [hasker, decide_eq_true_eq] at hover
    have hended := hover.2 i
    have hpiece := h.pieces i
    have hout : (s.relays i).stages .taker = none := by
      by_contra hin
      have htaking := hpiece.takes hin
      simp [hended] at htaking
    have hslot := (hpiece.ended hended).2
    simp [queue, inHand, hended, handOf, Monitor.Threads.pending, hout, hslot, unput,
      h.due k hasker]

/-- Where no thread can take a step, the walk is over or waits to ask. -/
theorem Sound.stuck_cases (h : s.Sound) (hstuck : ∀ e, s.moves e = false) :
    s.isOver = true ∨ s.asker = .asking ∧ s.due = [] := by
  -- A taker that is not in its relay is done.
  have htaker : ∀ i, (s.relays i).stages .taker = none → s.takers i = .ended := by
    intro i hout
    have hthis := hstuck (.taker i .asker false)
    simp only [moves] at hthis
    cases htaker : s.takers i with
    | taking => simp [htaker, hout] at hthis
    | looking file => simp [htaker] at hthis
    | storing file => simp [htaker] at hthis
    | ended => rfl
  have htakerIn : ∀ i stage, (s.relays i).stages .taker = some stage → ∀ chosen,
      (s.relays i).moves Relay.monitor chosen stage = false := by
    intro i stage hstage chosen
    have hthis := hstuck (.taker i chosen false)
    simpa [moves, (h.pieces i).takes (by simp [hstage]), hstage] using hthis
  have hasker : ∀ i stage, (s.relays i).stages .asker = some stage → ∀ chosen,
      (s.relays i).moves Relay.monitor chosen stage = false := by
    intro i stage hstage chosen
    obtain ⟨call, hdue⟩ := (h.pieces i).asks (by simp [hstage])
    have hthis := hstuck (.asker chosen)
    simpa [moves, hdue, hstage] using hthis
  have hrelay : ∀ i, ∀ side chosen stage, (s.relays i).stages side = some stage →
      (s.relays i).moves Relay.monitor chosen stage = false := by
    intro i side chosen stage hstage
    cases side with
    | asker => exact hasker i stage hstage chosen
    | taker => exact htakerIn i stage hstage chosen
  have hcases := fun i => Relay.stuck_cases (h.pieces i).held (h.pieces i).minded (hrelay i)
  -- No taker sleeps but in an open relay with nothing in it.
  have hopen : ∀ i, s.takers i ≠ .ended → (s.relays i).state.slot = none ∧
      (s.relays i).state.closed = false := by
    intro i hne
    obtain ⟨stage, hstage⟩ := Option.ne_none_iff_exists'.mp fun hout => hne (htaker i hout)
    rcases hcases i with hput | htake
    · obtain ⟨-, file, rfl⟩ := hput .taker stage hstage
      have hcall : RelayCall.put file = .take := (h.pieces i).calls .taker _ _ hstage rfl
      simp at hcall
    · obtain ⟨hslot, hclosed, -⟩ := htake .taker stage hstage
      exact ⟨hslot, hclosed⟩
  cases hdue : s.due? with
  | none =>
    cases hwhere : s.asker with
    | asking =>
      right
      refine ⟨rfl, ?_⟩
      cases hlist : s.due with
      | nil => rfl
      | cons next rest => simp [due?, hwhere, hlist] at hdue
    | closing k =>
      left
      have hk : n ≤ k := by
        by_contra hlt
        simp [due?, hwhere, not_le.mp hlt] at hdue
      simp only [isOver, hwhere, decide_eq_true_eq]
      refine ⟨hk, fun i => ?_⟩
      by_contra hne
      have hclosed := (h.pieces i).shut k hwhere (i.isLt.trans_le hk)
      rw [(hopen i hne).2] at hclosed
      exact absurd hclosed Bool.false_ne_true
  | some next =>
    obtain ⟨i, call⟩ := next
    exfalso
    -- The asking thread is in its call, and sleeps over a full slot.
    have hin : ∃ stage, (s.relays i).stages .asker = some stage := by
      refine Option.ne_none_iff_exists'.mp fun hout => ?_
      have hthis := hstuck (.asker .asker)
      simp [moves, hdue, hout] at hthis
    obtain ⟨stage, hstage⟩ := hin
    rcases hcases i with hput | htake
    · obtain ⟨hfull, file, rfl⟩ := hput .asker stage hstage
      have hcall : s.due? = some (i, .put file) := (h.pieces i).calls .asker _ _ hstage rfl
      have hasking := due?_put hcall
      by_cases hended : s.takers i = .ended
      · obtain ⟨k, hk, -⟩ := (h.pieces i).closed ((h.pieces i).ended hended).1
        simp [hasking] at hk
      · simp [(hopen i hended).1] at hfull
    · obtain ⟨-, -, rfl⟩ := htake .asker stage hstage
      exact due?_take ((h.pieces i).calls .asker _ _ hstage rfl)

/-! ### Steps come to an end -/

theorem sum_change {f g : Fin n → ℕ} (i : Fin n) (h : ∀ j ≠ i, g j = f j) :
    ∑ j, g j + f i = ∑ j, f j + g i := by
  have hf := Finset.add_sum_erase Finset.univ f (Finset.mem_univ i)
  have hg := Finset.add_sum_erase Finset.univ g (Finset.mem_univ i)
  have hrest : ∑ j ∈ Finset.univ.erase i, g j = ∑ j ∈ Finset.univ.erase i, f j :=
    Finset.sum_congr rfl fun j hj => h j (Finset.ne_of_mem_erase hj)
  omega

theorem callsLeft_pos {next : Fin n × RelayCall RecordFile} (h : s.due? = some next) :
    0 < s.callsLeft := by
  unfold due? at h
  unfold callsLeft
  cases hasker : s.asker with
  | asking =>
    have := next.1.isLt
    simp only
    omega
  | closing k =>
    simp only [hasker] at h
    split_ifs at h with hk
    simp only
    omega

/-- A step in the relay of a piece changes no other piece. -/
theorem left_relayStep {s' : Walkers n} {i : Fin n} {e : Relay.Event RecordFile Side}
    (hrelays : s'.relays = (s.relayStep i e).relays) (htakers : ∀ j ≠ i, s'.takers j = s.takers j)
    (hqueue : ∀ j, s'.queue j = s.queue j) (j : Fin n) (hj : j ≠ i) :
    s'.pieceLeft j = s.pieceLeft j := by
  unfold pieceLeft isIn
  rw [hqueue, hrelays, relays_relayStep_of_ne hj, htakers j hj]

/-- Whether the taker is in the relay is not for the asking thread to change. -/
theorem isIn_go_of_ne {side other : Side} (hne : other ≠ side) (chosen : Side) :
    ((Relay.monitor.step r (.go side chosen)).stages other).isSome = (r.stages other).isSome := by
  rcases Monitor.stages_go_of_ne (m := Relay.monitor) (s := r) hne chosen with
    hsame | ⟨op, hslept, hwoken⟩
  · rw [hsame]
  · rw [hslept, hwoken]
    rfl

theorem isIn_call_of_ne {side other : Side} (hne : other ≠ side) (call : RelayCall RecordFile) :
    (Relay.monitor.step r (.call side call)).stages other = r.stages other := by
  simp only [Monitor.step]
  split_ifs
  · exact Monitor.Threads.stages_comes_of_ne hne _
  · rfl

theorem stages_call {side : Side} (hout : r.stages side = none) (call : RelayCall RecordFile) :
    (Relay.monitor.step r (.call side call)).stages side = some (.entering call) := by
  simp only [Monitor.step, if_pos hout]
  exact r.stages_comes side _

theorem potential_call (r : Relay.Threads RecordFile Side) (side : Side)
    (call : RelayCall RecordFile) :
    (Relay.monitor.step r (.call side call)).potential ≤ r.potential + 10 := by
  have hstep := Monitor.potential_step (m := Relay.monitor) r (.call side call)
  have hcard : Fintype.card Side = 2 := rfl
  simp only [Monitor.Threads.moved, List.length_nil, Monitor.Event.adds, hcard] at hstep
  omega

/-- What a step in a relay leaves, where it is one. -/
theorem potential_go {side : Side} {stage} (hstage : r.stages side = some stage) (chosen : Side) :
    (Relay.monitor.step r (.go side chosen)).potential +
      (if r.moves Relay.monitor chosen stage = true then 1 else 0) ≤ r.potential := by
  have hstep := Monitor.potential_step (m := Relay.monitor) r (.go side chosen)
  simp only [Monitor.Threads.moved, hstage, Option.any_some, Monitor.Event.adds] at hstep
  split_ifs at hstep ⊢ <;> simpa using hstep

theorem callsLeft_returned {next : Fin n × RelayCall RecordFile} (h : s.due? = some next) :
    s.returned.callsLeft + 1 = s.callsLeft := by
  unfold due? at h
  unfold Walkers.returned callsLeft
  cases hasker : s.asker with
  | asking =>
    simp only [hasker] at h ⊢
    cases hdue : s.due with
    | nil => simp [hdue] at h
    | cons next rest =>
      simp only [List.tail_cons, List.length_cons]
      omega
  | closing k =>
    simp only [hasker] at h ⊢
    split_ifs at h with hk
    omega

/-- What a step of the asking thread in a relay leaves of the piece. -/
theorem pieceLeft_askerGo {i : Fin n} {stage} (hstage : (s.relays i).stages .asker = some stage)
    {chosen : Side} {s' : Walkers n}
    (hrelays : s'.relays = (s.relayStep i (.go .asker chosen)).relays)
    (htakers : s'.takers = s.takers) (hqueue : ∀ j, s'.queue j = s.queue j) :
    ∑ j, s'.pieceLeft j + (if (s.relays i).moves Relay.monitor chosen stage = true then 1 else 0) ≤
      ∑ j, s.pieceLeft j := by
  have hsum := sum_change i (left_relayStep hrelays (fun j _ => by rw [htakers]) hqueue)
  have hpotential := potential_go hstage chosen
  have hpiece :
      s'.pieceLeft i + (if (s.relays i).moves Relay.monitor chosen stage = true then 1 else 0) ≤
        s.pieceLeft i := by
    unfold pieceLeft isIn
    rw [hqueue, hrelays, htakers, relays_relayStep, isIn_go_of_ne (by decide)]
    omega
  omega

theorem left_askerStep (h : s.Sound) (chosen : Side) :
    (s.askerStep chosen).left + (if s.moves (.asker chosen) = true then 1 else 0) ≤ s.left := by
  have hqueue := h.queue_askerStep chosen
  cases hdue : s.due? with
  | none => simp [Walkers.askerStep, moves, hdue]
  | some next =>
    obtain ⟨i, call⟩ := next
    have hpos := callsLeft_pos hdue
    by_cases hin : s.isIn i .asker = true
    · obtain ⟨stage, hstage⟩ := Option.isSome_iff_exists.mp hin
      have hmoves : s.moves (.asker chosen) = (s.relays i).moves Relay.monitor chosen stage := by
        simp [moves, hdue, hstage]
      have hcalling : s.isCalling = true := by simp [isCalling, hdue, hin]
      rw [hmoves]
      by_cases hstays : (s.relayStep i (.go .asker chosen)).isIn i .asker = true
      · have hstep : s.askerStep chosen = s.relayStep i (.go .asker chosen) := by
          simp [Walkers.askerStep, hdue, hin, hstays]
        have hpieces := pieceLeft_askerGo hstage (by rw [hstep]) (by rw [hstep]; rfl) hqueue
        have hasker : (s.askerStep chosen).askerLeft = s.askerLeft := by
          have hstill : (s.relayStep i (.go .asker chosen)).isCalling = true := by
            have hnext : (s.relayStep i (.go .asker chosen)).due? = some (i, call) := hdue
            simp [isCalling, hnext, hstays]
          rw [hstep, askerLeft, askerLeft, hstill, hcalling]
          rfl
        unfold left
        omega
      · have hstep : s.askerStep chosen = (s.relayStep i (.go .asker chosen)).returned := by
          simp [Walkers.askerStep, hdue, hin, hstays]
        have hpieces := pieceLeft_askerGo hstage (by rw [hstep, relays_returned])
          (by rw [hstep, takers_returned]; rfl) hqueue
        have hcalls : (s.askerStep chosen).callsLeft + 1 = s.callsLeft := by
          rw [hstep]
          exact callsLeft_returned (s := s.relayStep i (.go .asker chosen)) hdue
        have hasker : (s.askerStep chosen).askerLeft ≤ 12 * (s.askerStep chosen).callsLeft :=
          Nat.sub_le _ _
        have hbefore : s.askerLeft = 12 * s.callsLeft - 11 := by
          rw [askerLeft, hcalling, if_pos rfl]
        unfold left
        omega
    · have hout : (s.relays i).stages .asker = none := by simpa [isIn] using hin
      have hstep : s.askerStep chosen = s.relayStep i (.call .asker call) := by
        simp [Walkers.askerStep, hdue, hin]
      have hothers := left_relayStep (s := s) (i := i) (e := .call .asker call)
        (by rw [hstep]) (fun j _ => by rw [hstep]; rfl) hqueue
      have hsum := sum_change i hothers
      have hpotential := potential_call (s.relays i) .asker call
      have hpiece : (s.askerStep chosen).pieceLeft i ≤ s.pieceLeft i + 10 := by
        unfold pieceLeft isIn
        rw [hqueue, hstep, relays_relayStep, isIn_call_of_ne (by decide)]
        show _ + leftOf _ (s.takers i) ≤ _
        omega
      have hbefore : s.askerLeft = 12 * s.callsLeft := by
        simp [askerLeft, isCalling, hdue, hin]
      have hafter : (s.askerStep chosen).askerLeft = 12 * s.callsLeft - 11 := by
        have hnext : (s.relayStep i (.call .asker call)).due? = some (i, call) := hdue
        have hcalling : (s.relayStep i (.call .asker call)).isCalling = true := by
          simp [isCalling, hnext, isIn, relays_relayStep, stages_call hout]
        rw [hstep, askerLeft, hcalling]
        rfl
      have hmoves : s.moves (.asker chosen) = true := by simp [moves, hdue, hout]
      rw [if_pos hmoves]
      unfold left
      omega

/-- What the asking thread has left is not for a taker to change. -/
theorem askerLeft_congr {s' : Walkers n} (hasker : s'.asker = s.asker) (hdue : s'.due = s.due)
    (hin : ∀ j, s'.isIn j .asker = s.isIn j .asker) : s'.askerLeft = s.askerLeft := by
  have hcalls : s'.callsLeft = s.callsLeft := by
    unfold callsLeft
    rw [hasker, hdue]
  have hnext : s'.due? = s.due? := by
    unfold due?
    rw [hasker, hdue]
  unfold askerLeft isCalling
  rw [hcalls, hnext]
  simp only [hin]

theorem isIn_relayStep {i : Fin n} {e : Relay.Event RecordFile Side} {side : Side}
    (h : ((Relay.monitor.step (s.relays i) e).stages side).isSome =
      ((s.relays i).stages side).isSome) (j : Fin n) :
    (s.relayStep i e).isIn j side = s.isIn j side := by
  unfold isIn
  by_cases hj : j = i
  · rw [hj, relays_relayStep, h]
  · rw [relays_relayStep_of_ne hj]

/-- A taker that has taken in a file, or dropped one, is as far from the end as before it had it. -/
theorem left_setTaker (h : s.Sound) {i : Fin n} {file : RecordFile}
    (hfile : s.takers i = .looking file ∨ s.takers i = .storing file) :
    (s.setTaker i .taking).left + 1 ≤ s.left := by
  have hout : s.isIn i .taker = false := by
    by_contra hin
    have htaking := (h.pieces i).takes (by simpa [isIn, Option.isSome_iff_ne_none] using hin)
    rcases hfile with hfile | hfile <;> simp [hfile] at htaking
  have hqueue := h.queue_setTaker hfile
  have hothers : ∀ j ≠ i, (s.setTaker i .taking).pieceLeft j = s.pieceLeft j := by
    intro j hj
    have htaker : (s.setTaker i .taking).takers j = s.takers j := Function.update_of_ne hj ..
    unfold pieceLeft
    rw [hqueue j, if_neg hj, htaker]
    rfl
  have hsum := sum_change i hothers
  have hpiece : (s.setTaker i .taking).pieceLeft i + 1 ≤ s.pieceLeft i := by
    have htaker : (s.setTaker i .taking).takers i = .taking := Function.update_self ..
    have hin : (s.setTaker i .taking).isIn i .taker = false := hout
    have hleft : 1 ≤ leftOf (s.isIn i .taker) (s.takers i) := by
      rcases hfile with hfile | hfile <;> simp [hfile, leftOf]
    have hrelay : ((s.setTaker i .taking).relays i).potential = (s.relays i).potential := rfl
    unfold pieceLeft
    rw [hqueue i, if_pos rfl, htaker, hin, hrelay, List.length_append, List.length_singleton,
      show leftOf false .taking = 14 from rfl]
    omega
  have hasker : (s.setTaker i .taking).askerLeft = s.askerLeft :=
    askerLeft_congr rfl rfl fun _ => rfl
  unfold left
  omega

theorem left_takerStep (h : s.Sound) (i : Fin n) (chosen : Side) (throws : Bool) :
    (s.takerStep i chosen throws (s.takers i)).left +
      (if s.moves (.taker i chosen throws) = true then 1 else 0) ≤ s.left := by
  cases htaker : s.takers i with
  | taking =>
    by_cases hin : s.isIn i .taker = true
    · obtain ⟨stage, hstage⟩ := Option.isSome_iff_exists.mp hin
      have hqueue := h.queue_takerGo htaker hstage chosen
      have hmoves : s.moves (.taker i chosen throws) =
          (s.relays i).moves Relay.monitor chosen stage := by
        simp [moves, htaker, hstage]
      have hstep : s.takerStep i chosen throws .taking =
          (s.relayStep i (.go .taker chosen)).setTaker i
            (ofTaken (Monitor.returns Relay.monitor .taker (s.relays i) (.go .taker chosen))) := by
        simp [takerStep, hin]
      have hothers :
          ∀ j ≠ i, (s.takerStep i chosen throws .taking).pieceLeft j = s.pieceLeft j := by
        rw [hstep]
        exact left_relayStep (e := .go .taker chosen) rfl
          (fun j hj => Function.update_of_ne hj ..) hqueue
      have hsum := sum_change i hothers
      have hpotential := potential_go hstage chosen
      have hnow : leftOf ((s.takerStep i chosen throws .taking).isIn i .taker)
          ((s.takerStep i chosen throws .taking).takers i) ≤ 3 := by
        have hset : (s.takerStep i chosen throws .taking).takers i =
            ofTaken (Monitor.returns Relay.monitor .taker (s.relays i) (.go .taker chosen)) := by
          rw [hstep]
          exact Function.update_self ..
        have hrelay : (s.takerStep i chosen throws .taking).isIn i .taker =
            ((Relay.monitor.step (s.relays i) (.go .taker chosen)).stages .taker).isSome := by
          rw [hstep]
          exact congrArg (fun r => (Monitor.Threads.stages r Side.taker).isSome)
            (relays_relayStep s i (.go .taker chosen))
        rw [hset, hrelay]
        rcases Monitor.go_cases (m := Relay.monitor) hstage chosen with
          ⟨op, -, -, hleaving, hreturns⟩ |
            ⟨-, -, ⟨stage', hstage', -, hreturns⟩ | ⟨notice, result, -, hout, hreturns⟩⟩
        · simp [hreturns, hleaving, ofTaken, leftOf]
        · simp [hreturns, hstage', ofTaken, leftOf]
        · rw [hreturns]
          rcases result with - | - | file <;> simp [ofTaken, leftOf]
      have hpiece : (s.takerStep i chosen throws .taking).pieceLeft i +
          (if (s.relays i).moves Relay.monitor chosen stage = true then 1 else 0) ≤
            s.pieceLeft i := by
        have hthen : leftOf (s.isIn i .taker) (s.takers i) = 3 := by rw [hin, htaker]; rfl
        have hlength : ((s.takerStep i chosen throws .taking).queue i).length =
            (s.queue i).length := by rw [hstep, hqueue]
        have hrelay : ((s.takerStep i chosen throws .taking).relays i).potential =
            (Relay.monitor.step (s.relays i) (.go .taker chosen)).potential := by
          rw [hstep]
          exact congrArg Monitor.Threads.potential (relays_relayStep s i (.go .taker chosen))
        unfold pieceLeft
        omega
      have hasker : (s.takerStep i chosen throws .taking).askerLeft = s.askerLeft := by
        rw [hstep]
        exact askerLeft_congr rfl rfl (isIn_relayStep (isIn_go_of_ne (by decide) chosen))
      rw [hmoves]
      unfold left
      omega
    · have hout : (s.relays i).stages .taker = none := by simpa [isIn] using hin
      have hstep : s.takerStep i chosen throws .taking = s.relayStep i (.call .taker .take) := by
        simp [takerStep, hin]
      have hqueue := queue_call s i .taker .take
      have hothers := left_relayStep (s := s) (i := i) (e := .call .taker .take) rfl
        (fun _ _ => rfl) hqueue
      have hsum := sum_change i hothers
      have hpotential := potential_call (s.relays i) .taker .take
      have hpiece : (s.relayStep i (.call .taker .take)).pieceLeft i + 1 ≤ s.pieceLeft i := by
        have hnow : (s.relayStep i (.call .taker .take)).isIn i .taker = true := by
          simp [isIn, relays_relayStep, stages_call hout]
        have hthen : s.isIn i .taker = false := by simpa using hin
        have hsame : (s.relayStep i (.call .taker .take)).takers i = .taking := htaker
        unfold pieceLeft
        rw [hqueue, relays_relayStep, hnow, hthen, hsame, htaker]
        simp only [leftOf, if_true, Bool.false_eq_true, if_false]
        omega
      have hasker : (s.relayStep i (.call .taker .take)).askerLeft = s.askerLeft :=
        askerLeft_congr rfl rfl (isIn_relayStep (by rw [isIn_call_of_ne (by decide)]))
      rw [hstep]
      unfold left
      split_ifs <;> omega
  | looking file =>
    have hmoves : s.moves (.taker i chosen throws) = true := by simp [moves, htaker]
    rw [hmoves, if_pos rfl, takerStep]
    cases hfailed : s.failed with
    | true => exact left_setTaker h (.inl htaker)
    | false =>
      have hqueue : ∀ j, (s.setTaker i (.storing file)).queue j = s.queue j :=
        queue_storing htaker
      have hothers : ∀ j ≠ i, (s.setTaker i (.storing file)).pieceLeft j = s.pieceLeft j := by
        intro j hj
        have hsame : (s.setTaker i (.storing file)).takers j = s.takers j :=
          Function.update_of_ne hj ..
        unfold pieceLeft
        rw [hqueue j, hsame]
        rfl
      have hsum := sum_change i hothers
      have hpiece : (s.setTaker i (.storing file)).pieceLeft i + 1 = s.pieceLeft i := by
        have hnow : (s.setTaker i (.storing file)).takers i = .storing file :=
          Function.update_self ..
        have hrelay : ((s.setTaker i (.storing file)).relays i).potential =
            (s.relays i).potential := rfl
        unfold pieceLeft
        rw [hqueue i, hnow, htaker, hrelay]
        simp only [leftOf]
      have hasker : (s.setTaker i (.storing file)).askerLeft = s.askerLeft :=
        askerLeft_congr rfl rfl fun _ => rfl
      rw [if_neg (by simp)]
      unfold left
      omega
  | storing file =>
    have hmoves : s.moves (.taker i chosen throws) = true := by simp [moves, htaker]
    rw [hmoves, if_pos rfl]
    exact left_setTaker h (.inr htaker)
  | ended => simp [takerStep, moves, htaker]

theorem left_wake (s : Walkers n) (i : Fin n) (side : Side) :
    (s.relayStep i (.wake side)).left ≤ s.left + 3 := by
  have hin : ∀ other, ((Relay.monitor.step (s.relays i) (.wake side)).stages other).isSome =
      ((s.relays i).stages other).isSome := by
    intro other
    rcases (s.relays i).stages_rouse (fun t => decide (t = side)) other with
      ⟨hsame, -⟩ | ⟨op, hslept, -, hwoken⟩
    · exact congrArg Option.isSome hsame
    · exact (congrArg Option.isSome hwoken).trans (congrArg Option.isSome hslept).symm
  have hqueue := queue_wake s i side
  have hothers := left_relayStep (s := s) (i := i) (e := .wake side) rfl (fun _ _ => rfl) hqueue
  have hsum := sum_change i hothers
  have hpotential := Monitor.potential_step (m := Relay.monitor) (s.relays i) (.wake side)
  simp only [Monitor.Threads.moved, List.length_nil, Monitor.Event.adds] at hpotential
  have hpiece : (s.relayStep i (.wake side)).pieceLeft i ≤ s.pieceLeft i + 3 := by
    unfold pieceLeft
    rw [hqueue, isIn_relayStep (hin .taker), relays_relayStep]
    show _ + leftOf _ (s.takers i) ≤ _
    omega
  have hasker : (s.relayStep i (.wake side)).askerLeft = s.askerLeft :=
    askerLeft_congr rfl rfl (isIn_relayStep (hin .asker))
  unfold left
  omega

/-- An answer brings one file at the most. -/
theorem Sound.length_answered (h : s.Sound) (sources : Fin n → Except Response Store) (i : Fin n) :
    (s.answered wanted sources i).relay.length ≤ 1 := by
  have hempty := h.empty i
  unfold answered
  split_ifs
  · cases Transfer.answerOf wanted (n := n) (s.pieces i).toPiece (sources i) with
    | error refusal => simp [carry, hempty]
    | ok answer =>
      simp only [carry, hempty]
      split_ifs
      · simp
      · cases Base64.decode answer.next with
        | none => simp
        | some next =>
          dsimp only
          split_ifs <;> simp
  · simp [hempty]

theorem left_ask (h : s.Sound) (hasker : s.asker = .asking) (hdue : s.due = [])
    (sources : Fin n → Except Response Store) :
    (s.asked wanted sources).left ≤ s.left + 26 * n := by
  have hpieces : ∀ i, (s.asked wanted sources).pieceLeft i =
      s.pieceLeft i + 14 * (s.answered wanted sources i).relay.length := by
    intro i
    have hrelay : ((s.asked wanted sources).relays i).potential = (s.relays i).potential := rfl
    have htaker : leftOf ((s.asked wanted sources).isIn i .taker)
        ((s.asked wanted sources).takers i) = leftOf (s.isIn i .taker) (s.takers i) := rfl
    unfold pieceLeft
    rw [h.queue_asked hasker hdue, hrelay, htaker, List.length_append]
    omega
  have hdueLength : (s.asked wanted sources).due.length =
      ∑ i, (s.answered wanted sources i).relay.length := by
    simp [asked, List.length_flatMap, List.sum_ofFn, ← List.ofFn_eq_map]
  have hfiles : ∑ i, (s.answered wanted sources i).relay.length ≤ n := by
    calc ∑ i, (s.answered wanted sources i).relay.length ≤ ∑ _i : Fin n, 1 :=
          Finset.sum_le_sum fun i _ => h.length_answered sources i
      _ = n := by simp
  have hafter : (s.asked wanted sources).askerLeft ≤
      12 * ((s.asked wanted sources).due.length + n) := by
    have hcalls : (s.asked wanted sources).callsLeft = (s.asked wanted sources).due.length + n := by
      have hstill : (s.asked wanted sources).asker = .asking := hasker
      rw [callsLeft, hstill]
    rw [askerLeft, hcalls]
    exact Nat.sub_le _ _
  have hbefore : s.askerLeft = 12 * n := by
    simp [askerLeft, callsLeft, isCalling, due?, hasker, hdue]
  unfold left
  simp only [hpieces, Finset.sum_add_distrib, ← Finset.mul_sum]
  omega

/-- **What a step leaves to do.** -/
theorem left_step (h : s.Sound) (e : WalkersEvent n) :
    (s.step wanted e).left + (if s.moves e = true then 1 else 0) ≤ s.left + adds e := by
  cases e with
  | ask sources =>
    simp only [Walkers.step, moves, adds, Bool.false_eq_true, if_false]
    cases hasker : s.asker with
    | closing k => exact Nat.le_add_right _ _
    | asking =>
      simp only
      split_ifs with hdue
      · exact left_ask h hasker hdue sources
      · exact Nat.le_add_right _ _
  | finish =>
    simp only [Walkers.step, moves, adds, Bool.false_eq_true, if_false]
    cases hasker : s.asker with
    | closing k => exact le_rfl
    | asking =>
      simp only
      split_ifs with hdue
      · have hbefore : s.askerLeft = 12 * n := by
          simp [askerLeft, callsLeft, isCalling, due?, hasker, hdue]
        have hafter : askerLeft { s with asker := .closing 0 } ≤ 12 * n := by
          rw [askerLeft, callsLeft]
          exact Nat.sub_le _ _
        exact Nat.add_le_add_left (hafter.trans_eq hbefore.symm) _
      · exact le_rfl
  | asker chosen => exact left_askerStep h chosen
  | taker i chosen throws => exact left_takerStep h i chosen throws
  | wake i side => exact left_wake s i side

theorem moved_add_left_le (wanted : Share) (h : s.Sound) (es : List (WalkersEvent n)) :
    (history (Walkers.step wanted) moved s es).length + (run (Walkers.step wanted) s es).left ≤
      s.left + (es.map adds).sum := by
  refine (throughout_true s es).spends left (fun s e h _ => h.step e) (fun s e h _ => ?_) h
  have hstep : (s.step wanted e).left + (if s.moves e = true then 1 else 0) ≤ s.left + adds e :=
    left_step h e
  have hmoved : (moved s e).length = if s.moves e = true then 1 else 0 := by
    unfold moved
    split_ifs <;> rfl
  omega

theorem left_start (points : List Bytes) :
    (start points).left = 26 * (piecesOf points).length := by
  have hpiece : ∀ i, (start points).pieceLeft i = 14 := by
    intro i
    have hqueue : (start points).queue i = [] := by
      simp [start, queue, inHand, unput, handOf, Monitor.Threads.pending]
    have hpotential : ((start points).relays i).potential = 0 := by
      simp [start, Monitor.Threads.potential, Monitor.Threads.left]
    rw [pieceLeft, hqueue, hpotential]
    rfl
  have hasker : (start points).askerLeft = 12 * (piecesOf points).length := by
    simp [askerLeft, callsLeft, isCalling, due?, start]
  rw [left, hasker]
  simp only [hpiece, Finset.sum_const, Finset.card_univ, Fintype.card_fin, smul_eq_mul]
  omega

end

end Walkers

section

open Walkers

/-- **The threads of a walk do what the walk does.** However its asking thread and its takers get in
one another's way, with room for one file between them: every file is taken in where the walk takes
it in from a queue without a bound, and the pieces stand where the walk has them stand. Once the
takers are joined nothing waits, and the walk and its threads say alike whether it was whole and
whether it was refused; and what was handed over where no file failed is what the walk has handed
over. -/
theorem threads_walk (wanted : Share) (points : List Bytes)
    (es : List (WalkersEvent (piecesOf points).length)) :
    let s := run (Walkers.step wanted) (start points) es
    let t := run (Transfer.step wanted) (Transfer.start points)
      (history (Walkers.step wanted) effects (start points) es)
    s.Walks t ∧ (s.isOver = true →
      t.Joined ∧ s.whole = t.whole ∧ s.refused = t.refused ∧
        (s.whole = true → s.handed = t.handed)) := by
  intro s t
  have hall : Throughout (Walkers.step wanted) (fun _ _ => True) (start points) es :=
    throughout_true _ es
  have hsound : s.Sound :=
    hall.invariant (I := Walkers.Sound) (fun s e h _ => h.step e) (sound_start points)
  have hwalks : s.Walks t := hall.simulates (I := Walkers.Sound) Walks (fun s e h _ => h.step e)
    (fun s e t h _ hwalks => hwalks.step h e) (sound_start points) (walks_start points)
  refine ⟨hwalks, fun hover => ⟨fun i => ?_, ?_, ?_, fun hwhole => ?_⟩⟩
  · rw [hwalks.pieces]
    exact hsound.queue_of_isOver hover i
  · simp [whole, Transfer.whole, hwalks.failed, hwalks.pieces]
  · simp [refused, Transfer.refused, hwalks.pieces]
  · have hfailed : s.failed = false := by
      simp only [whole, decide_eq_true_eq] at hwhole
      exact hwhole.1
    exact (hwalks.handed hfailed).symm

/-- **A walk comes to its end.** In any state that its threads get to, one of them can take a step,
unless they are all joined or it is for the asking thread to ask again or to finish; and the steps
they take are no more than what the pieces, the fan outs and the waits that end for no reason give
rise to. -/
theorem walk_ends (wanted : Share) (points : List Bytes)
    (es : List (WalkersEvent (piecesOf points).length)) :
    let s := run (Walkers.step wanted) (start points) es
    ((∃ e, s.moves e = true) ∨ s.isOver = true ∨ s.asker = .asking ∧ s.due = []) ∧
      (history (Walkers.step wanted) moved (start points) es).length ≤
        26 * (piecesOf points).length + (es.map adds).sum := by
  intro s
  have hall : Throughout (Walkers.step wanted) (fun _ _ => True) (start points) es :=
    throughout_true _ es
  have hsound : s.Sound :=
    hall.invariant (I := Walkers.Sound) (fun s e h _ => h.step e) (sound_start points)
  refine ⟨?_, ?_⟩
  · by_cases hmoves : ∃ e, s.moves e = true
    · exact .inl hmoves
    · exact .inr (hsound.stuck_cases fun e => Bool.eq_false_iff.mpr fun he => hmoves ⟨e, he⟩)
  · have hsteps := moved_add_left_le wanted (sound_start points) es
    have hstart := left_start points
    omega

end

end AsyncDatabase
