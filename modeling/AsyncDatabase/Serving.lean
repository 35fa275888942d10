import AsyncDatabase.Library.Refinement

/-!
# Serving and its end

The sessions of a server (`server/session.cpp`), the acceptor that makes them, and what ends them:
`close`, which may be called on any thread, and `drain` (`server/server.cpp`). What runs on one
strand is one step, and a function dispatched to a strand is run there at any time after.
`serving_ends` says what is left of it all once the server is stopping.
-/

namespace AsyncDatabase

open Machine

variable {ρ α : Type}

/-- Where a session is. -/
inductive SessionStage (ρ α : Type) where
  /-- It is made, and is not run yet. -/
  | made
  /-- It is run: `waiting` is set, and the first read is not pending yet. -/
  | reading
  /-- `waiting`: a read is pending, which a stop may have cancelled. -/
  | waiting (cancelled : Bool)
  /-- `handle_request`. -/
  | handling (request : ρ)
  | writing (answer : α) (keepAlive : Bool)
  | closed

namespace SessionStage

variable (keepAlive : ρ → Bool) (stopping : Bool)

def isClosed : SessionStage ρ α → Bool
  | .closed => true
  | .made | .reading | .waiting _ | .handling _ | .writing .. => false

/-- No read of it has been pending, so that there is none to cancel. -/
def isEarly : SessionStage ρ α → Bool
  | .made | .reading => true
  | .waiting _ | .handling _ | .writing .. | .closed => false

def isWaiting : SessionStage ρ α → Bool
  | .waiting _ => true
  | .made | .reading | .handling _ | .writing .. | .closed => false

/-- The request that is handled. -/
def request? : SessionStage ρ α → Option ρ
  | .handling request => some request
  | .made | .reading | .waiting _ | .writing .. | .closed => none

/-- The stages that are left to a session whose server is stopping. -/
def left : SessionStage ρ α → ℕ
  | .made => 4
  | .reading => 3
  | .waiting _ => 3
  | .handling _ => 2
  | .writing .. => 1
  | .closed => 0

/-- `on_read`: a request, or the error the read ended in. -/
def onRead (stage : SessionStage ρ α) (request : Option ρ) : SessionStage ρ α :=
  match stage with
  | .waiting _ => request.elim .closed .handling
  | .made => .made
  | .reading => .reading
  | .handling request => .handling request
  | .writing answer keeps => .writing answer keeps
  | .closed => .closed

/-- What `handle_request` comes to is written, with whether the connection is kept, unless it threw
and there is nothing to write. -/
def write (stage : SessionStage ρ α) (answer : Option α) : SessionStage ρ α :=
  match stage with
  | .handling request => answer.elim .closed (.writing · (keepAlive request && !stopping))
  | .made => .made
  | .reading => .reading
  | .waiting cancelled => .waiting cancelled
  | .writing answer keeps => .writing answer keeps
  | .closed => .closed

/-- `on_write`. -/
def onWrite (stage : SessionStage ρ α) (failed : Bool) : SessionStage ρ α :=
  match stage with
  | .writing _ keeps => if !failed && keeps && !stopping then .waiting false else .closed
  | .made => .made
  | .reading => .reading
  | .waiting cancelled => .waiting cancelled
  | .handling request => .handling request
  | .closed => .closed

/-- What `stop` dispatched: only a session whose read is pending has something to cancel. -/
def stop (stage : SessionStage ρ α) : SessionStage ρ α :=
  match stage with
  | .waiting _ => .waiting true
  | .made => .made
  | .reading => .reading
  | .handling request => .handling request
  | .writing answer keeps => .writing answer keeps
  | .closed => .closed

section

variable {keepAlive stopping}

theorem left_onRead_le (stage : SessionStage ρ α) (request : Option ρ) :
    (stage.onRead request).left ≤ stage.left := by
  cases stage with
  | waiting cancelled => cases request <;> simp [onRead, left]
  | made => exact le_rfl
  | reading => exact le_rfl
  | handling request => exact le_rfl
  | writing answer keeps => exact le_rfl
  | closed => exact le_rfl

theorem left_write_le (stage : SessionStage ρ α) (answer : Option α) :
    (stage.write keepAlive stopping answer).left ≤ stage.left := by
  cases stage with
  | handling request => cases answer <;> simp [write, left]
  | made => exact le_rfl
  | reading => exact le_rfl
  | waiting cancelled => exact le_rfl
  | writing answer keeps => exact le_rfl
  | closed => exact le_rfl

/-- Once the server is stopping nothing is read after an answer. -/
theorem left_onWrite_le (stage : SessionStage ρ α) (failed : Bool) :
    (stage.onWrite true failed).left ≤ stage.left := by
  cases stage with
  | writing answer keeps => simp [onWrite, left]
  | made => exact le_rfl
  | reading => exact le_rfl
  | waiting cancelled => exact le_rfl
  | handling request => exact le_rfl
  | closed => exact le_rfl

@[simp] theorem left_stop (stage : SessionStage ρ α) : stage.stop.left = stage.left := by
  cases stage <;> rfl

@[simp] theorem request?_stop (stage : SessionStage ρ α) :
    stage.stop.request? = stage.request? := by
  cases stage <;> rfl

end

end SessionStage

/-- Where the acceptor's strand is. -/
inductive AcceptorStage where
  /-- An accept is pending, on an acceptor that was open when it was asked for or was not. -/
  | accepting (isPending : Bool)
  /-- `on_accept` is to hold the session it made. -/
  | holding (session : ℕ)
  /-- `on_accept` is to run the session. -/
  | running (session : ℕ)
  /-- `read` is to begin the session's first read. -/
  | reading (session : ℕ)
  | ended
  deriving DecidableEq

/-- Where a call of `close` is. -/
inductive CloseStage where
  /-- `nodes.stop()` and `stop_reconciling()`. -/
  | leaving
  /-- It goes through the sessions that were held as it set `stopping`. -/
  | telling (live : List ℕ)

/-- `server::server`, and what is dispatched and still to run. -/
structure Serving (ρ α : Type) where
  /-- The sessions, by the order they were accepted in. -/
  sessions : ℕ → Option (SessionStage ρ α) := fun _ => none
  accepted : ℕ := 0
  /-- `server::sessions`. -/
  held : List ℕ := []
  stopping : Bool := false
  acceptor : AcceptorStage := .accepting true
  isOpen : Bool := true
  /-- `router::draining`. -/
  draining : Bool := false
  /-- `drain_timer` is armed. -/
  timing : Bool := false
  closers : ℕ → Option CloseStage := fun _ => none
  /-- The stops that are dispatched to each session. -/
  stops : ℕ → ℕ := fun _ => 0
  /-- The ends of the acceptor that are dispatched to its strand. -/
  closings : ℕ := 0
  /-- The drains that are dispatched to the acceptor's strand. -/
  drains : ℕ := 0
  /-- The sessions that a stop found before their first read was pending. No step reads it. -/
  toldEarly : ℕ → Bool := fun _ => false

inductive ServingEvent (ρ α : Type) where
  /-- An accept ends, in a connection or in an error. -/
  | onAccept (failed : Bool)
  /-- `on_accept` goes on. -/
  | accepts
  | onRead (session : ℕ) (request : Option ρ)
  | write (session : ℕ) (answer : Option α)
  | onWrite (session : ℕ) (failed : Bool)
  /-- A stop that is dispatched to a session is run. -/
  | stop (session : ℕ)
  | close (caller : ℕ)
  /-- A call of `close` goes on. -/
  | closes (caller : ℕ)
  /-- The acceptor is closed on its strand. -/
  | closeAcceptor
  /-- `drain` is called, for some seconds. -/
  | drain
  /-- What `drain` dispatched is run. -/
  | drains
  /-- The drain timer fires. -/
  | fires (caller : ℕ)

namespace Serving

variable (keepAlive : ρ → Bool)

def setSession (s : Serving ρ α) (i : ℕ) (stage : Option (SessionStage ρ α)) : Serving ρ α :=
  { s with sessions := Function.update s.sessions i stage }

def setCloser (s : Serving ρ α) (caller : ℕ) (stage : Option CloseStage) : Serving ρ α :=
  { s with closers := Function.update s.closers caller stage }

def setStops (s : Serving ρ α) (i count : ℕ) : Serving ρ α :=
  { s with stops := Function.update s.stops i count }

/-- Nothing is left that holds the session. -/
def isExpired (s : Serving ρ α) (i : ℕ) : Bool :=
  (s.sessions i).all SessionStage.isClosed && s.stops i == 0

/-- `hold`. -/
def hold (s : Serving ρ α) (i : ℕ) : Serving ρ α :=
  { s with
    held := s.held.filter (!s.isExpired ·) ++ [i]
    stops := if s.stopping then Function.update s.stops i (s.stops i + 1) else s.stops }

/-- `on_accept`: a connection makes a session, and an error is either the end of the acceptor or
passed over. -/
def onAccept (s : Serving ρ α) (failed : Bool) : Serving ρ α :=
  match s.acceptor with
  | .accepting isPending =>
    if failed then { s with acceptor := if s.isOpen then .accepting true else .ended }
    else if isPending then
      let s' := s.setSession s.accepted (some .made)
      { s' with accepted := s.accepted + 1, acceptor := .holding s.accepted }
    else s
  | .holding _ => s
  | .running _ => s
  | .reading _ => s
  | .ended => s

/-- The rest of `on_accept`, with the `accept` at its end. -/
def accepts (s : Serving ρ α) : Serving ρ α :=
  match s.acceptor with
  | .holding i => { s.hold i with acceptor := .running i }
  | .running i => { s.setSession i (some .reading) with acceptor := .reading i }
  | .reading i =>
    { s.setSession i (some (.waiting false)) with acceptor := .accepting s.isOpen }
  | .accepting _ => s
  | .ended => s

/-- A stop that is dispatched to a session is run on its strand. -/
def stop (s : Serving ρ α) (i : ℕ) : Serving ρ α :=
  if s.stops i = 0 then s
  else
    let isEarly := (s.sessions i).any SessionStage.isEarly
    let s := s.setStops i (s.stops i - 1)
    let s := s.setSession i ((s.sessions i).map SessionStage.stop)
    { s with toldEarly := Function.update s.toldEarly i (isEarly || s.toldEarly i) }

/-- A call of `close` goes on: it sets `stopping` and reads the sessions under the mutex, and stops
one of them after the other. -/
def closes (s : Serving ρ α) (caller : ℕ) : Serving ρ α :=
  match s.closers caller with
  | none => s
  | some .leaving =>
    let s := s.setCloser caller (some (.telling s.held))
    { s with stopping := true, closings := s.closings + 1 }
  | some (.telling []) => s.setCloser caller none
  | some (.telling (i :: live)) =>
    let s := s.setCloser caller (some (.telling live))
    if s.isExpired i then s else s.setStops i (s.stops i + 1)

/-- `drain`, on the acceptor's strand. -/
def drain (s : Serving ρ α) : Serving ρ α :=
  if s.drains = 0 then s
  else if s.draining || !s.isOpen then { s with drains := s.drains - 1 }
  else { s with drains := s.drains - 1, draining := true, timing := true }

def step (s : Serving ρ α) : ServingEvent ρ α → Serving ρ α
  | .onAccept failed => s.onAccept failed
  | .accepts => s.accepts
  | .onRead i request => s.setSession i ((s.sessions i).map (·.onRead request))
  | .write i answer => s.setSession i ((s.sessions i).map (·.write keepAlive s.stopping answer))
  | .onWrite i failed => s.setSession i ((s.sessions i).map (·.onWrite s.stopping failed))
  | .stop i => s.stop i
  | .close caller => if (s.closers caller).isSome then s else s.setCloser caller (some .leaving)
  | .closes caller => s.closes caller
  | .closeAcceptor =>
    if s.closings = 0 then s
    else { s with closings := s.closings - 1, isOpen := false, timing := false }
  | .drain => { s with drains := s.drains + 1 }
  | .drains => s.drain
  | .fires caller =>
    if s.timing && (s.closers caller).isNone then
      { s.setCloser caller (if s.isOpen then some .leaving else none) with timing := false }
    else s

/-! ### What the sessions do -/

/-- The requests a session reads. -/
def reads (i : ℕ) (s : Serving ρ α) : ServingEvent ρ α → List ρ
  | .onRead j request =>
    if j = i ∧ (s.sessions i).any SessionStage.isWaiting = true then request.toList else []
  | .onAccept _ | .accepts | .write .. | .onWrite .. | .stop _ | .close _ | .closes _
  | .closeAcceptor | .drain | .drains | .fires _ => []

/-- The request in hand. -/
def inHand (i : ℕ) (s : Serving ρ α) : List ρ :=
  ((s.sessions i).bind SessionStage.request?).toList

/-- The requests a session is done with: each is answered, or there is nothing to write. -/
def handles (i : ℕ) (s : Serving ρ α) : ServingEvent ρ α → List ρ
  | .write j _ => if j = i then s.inHand i else []
  | .onAccept _ | .accepts | .onRead .. | .onWrite .. | .stop _ | .close _ | .closes _
  | .closeAcceptor | .drain | .drains | .fires _ => []

/-- The stages that are left to a session whose server is stopping, the making of it included. -/
def left (i : ℕ) (s : Serving ρ α) : ℕ := (s.sessions i).elim 4 SessionStage.left

/-- A session goes on to another stage. -/
def moves (i : ℕ) (s : Serving ρ α) (e : ServingEvent ρ α) : List Unit :=
  if left i (s.step keepAlive e) = left i s then [] else [()]

/-- A connection is accepted. -/
def makes (s : Serving ρ α) : ServingEvent ρ α → List Unit
  | .onAccept failed => if !failed ∧ s.acceptor = .accepting true then [()] else []
  | .accepts | .onRead .. | .write .. | .onWrite .. | .stop _ | .close _ | .closes _
  | .closeAcceptor | .drain | .drains | .fires _ => []

/-- The drain timer calls `close`. -/
def timesOut (s : Serving ρ α) : ServingEvent ρ α → List Unit
  | .fires caller => if s.timing && (s.closers caller).isNone then [()] else []
  | .onAccept _ | .accepts | .onRead .. | .write .. | .onWrite .. | .stop _ | .close _ | .closes _
  | .closeAcceptor | .drain | .drains => []

/-- A stop is still to reach the session. -/
def Owes (s : Serving ρ α) (i : ℕ) : Prop :=
  s.acceptor = .holding i ∨ (∃ caller live, s.closers caller = some (.telling live) ∧ i ∈ live) ∨
    0 < s.stops i

/-- The session waits for a read that no stop has cancelled, or is still to. -/
def IsUntold (s : Serving ρ α) (i : ℕ) : Prop :=
  s.sessions i = some .made ∨ s.sessions i = some .reading ∨ s.sessions i = some (.waiting false)

/-- What holds of a server in every state. -/
structure Sound (s : Serving ρ α) : Prop where
  fresh : ∀ i, s.accepted ≤ i → s.sessions i = none
  made : ∀ i, s.acceptor = .holding i ∨ s.acceptor = .running i → s.sessions i = some .made
  reading : ∀ i, s.acceptor = .reading i → s.sessions i = some .reading
  held : ∀ i stage, s.sessions i = some stage → stage.isClosed = false →
    s.acceptor = .holding i ∨ i ∈ s.held
  told : s.stopping = true → ∀ i, s.IsUntold i → s.Owes i ∨ s.toldEarly i = true

section

variable {s : Serving ρ α}

theorem Owes.mono {s' : Serving ρ α} {i : ℕ} (h : s.Owes i)
    (hacceptor : s.acceptor = .holding i → s'.acceptor = .holding i ∨ 0 < s'.stops i)
    (hclosers : ∀ caller live, s.closers caller = some (.telling live) → i ∈ live →
      (∃ caller live, s'.closers caller = some (.telling live) ∧ i ∈ live) ∨ 0 < s'.stops i)
    (hstops : s.stops i ≤ s'.stops i) : s'.Owes i := by
  rcases h with hholding | ⟨caller, live, hcaller, hlive⟩ | hpending
  · rcases hacceptor hholding with hholding' | hpending
    · exact .inl hholding'
    · exact .inr (.inr hpending)
  · rcases hclosers caller live hcaller hlive with htelling | hpending
    · exact .inr (.inl htelling)
    · exact .inr (.inr hpending)
  · exact .inr (.inr (hpending.trans_le hstops))

/-- The calls of `close` that are gone through go on where another call changes. -/
theorem exists_telling_setCloser {s : Serving ρ α} {caller other : ℕ} {live : List ℕ} {i : ℕ}
    (hother : s.closers other = some (.telling live)) (hlive : i ∈ live) (hne : other ≠ caller)
    (stage : Option CloseStage) : ∃ caller' live, (s.setCloser caller stage).closers caller' =
      some (.telling live) ∧ i ∈ live :=
  ⟨other, live, (Function.update_of_ne hne ..).trans hother, hlive⟩

/-- What changes no session, and makes no session's stop due or done, changes nothing here. -/
theorem Sound.same (h : s.Sound) {s' : Serving ρ α} (hsessions : s'.sessions = s.sessions)
    (haccepted : s'.accepted = s.accepted) (hheld : s'.held = s.held)
    (hacceptor : s'.acceptor = s.acceptor) (hstopping : s'.stopping = s.stopping)
    (hearly : s'.toldEarly = s.toldEarly) (howes : ∀ i, s.IsUntold i → s.Owes i → s'.Owes i) :
    s'.Sound where
  fresh i hi := by
    rw [hsessions]
    exact h.fresh i (haccepted ▸ hi)
  made i hi := by
    rw [hsessions]
    exact h.made i (hacceptor ▸ hi)
  reading i hi := by
    rw [hsessions]
    exact h.reading i (hacceptor ▸ hi)
  held i stage hstage hopen := by
    rw [hacceptor, hheld]
    exact h.held i stage (hsessions ▸ hstage) hopen
  told hstop i huntold := by
    have huntold' : s.IsUntold i := by simpa [IsUntold, hsessions] using huntold
    rw [hearly]
    exact (h.told (hstopping ▸ hstop) i huntold').imp_left (howes i huntold')

/-- A step of one session, which is not made again, and starts to wait only where the server is not
stopping. -/
theorem Sound.session (h : s.Sound) (i : ℕ) {f : SessionStage ρ α → SessionStage ρ α}
    (hmade : f .made = .made) (hreading : f .reading = .reading) (hclosed : f .closed = .closed)
    (huntold : s.stopping = true → ∀ stage,
      f stage = .made ∨ f stage = .reading ∨ f stage = .waiting false →
        stage = .made ∨ stage = .reading ∨ stage = .waiting false) :
    (s.setSession i ((s.sessions i).map f)).Sound where
  fresh j hj := by
    have hnone := h.fresh j hj
    by_cases hji : j = i
    · subst hji
      simp [setSession, hnone]
    · simpa [setSession, Function.update_of_ne hji] using hnone
  made j hj := by
    have hj' := h.made j hj
    by_cases hji : j = i
    · subst hji
      simp [setSession, hj', hmade]
    · simpa [setSession, Function.update_of_ne hji] using hj'
  reading j hj := by
    have hj' := h.reading j hj
    by_cases hji : j = i
    · subst hji
      simp [setSession, hj', hreading]
    · simpa [setSession, Function.update_of_ne hji] using hj'
  held j stage hstage hopen := by
    by_cases hji : j = i
    · subst hji
      obtain ⟨stage', hstage', rfl⟩ : ∃ stage', s.sessions j = some stage' ∧ f stage' = stage := by
        simpa [setSession] using hstage
      refine h.held j stage' hstage' ?_
      cases stage' with
      | closed => simp [hclosed, SessionStage.isClosed] at hopen
      | made => rfl
      | reading => rfl
      | waiting cancelled => rfl
      | handling request => rfl
      | writing answer keeps => rfl
    · exact h.held j stage (by simpa [setSession, Function.update_of_ne hji] using hstage) hopen
  told hstop j hj := by
    refine h.told hstop j ?_
    by_cases hji : j = i
    · subst hji
      unfold IsUntold at hj ⊢
      simp only [setSession, Function.update_self, Option.map_eq_some_iff] at hj
      rcases hj with ⟨stage, hstage, heq⟩ | ⟨stage, hstage, heq⟩ | ⟨stage, hstage, heq⟩
      · rw [hstage, Option.some_inj, Option.some_inj, Option.some_inj]
        exact huntold hstop stage (.inl heq)
      · rw [hstage, Option.some_inj, Option.some_inj, Option.some_inj]
        exact huntold hstop stage (.inr (.inl heq))
      · rw [hstage, Option.some_inj, Option.some_inj, Option.some_inj]
        exact huntold hstop stage (.inr (.inr heq))
    · simpa [IsUntold, setSession, Function.update_of_ne hji] using hj

/-- The acceptor goes on to where it neither holds nor runs a session. -/
theorem Sound.acceptor (h : s.Sound) (hnot : ∀ i, s.acceptor ≠ .holding i) {stage : AcceptorStage}
    (hholding : ∀ i, stage ≠ .holding i) (hrunning : ∀ i, stage ≠ .running i)
    (hreading : ∀ i, stage ≠ .reading i) :
    ({ s with acceptor := stage } : Serving ρ α).Sound where
  fresh := h.fresh
  made i hi := absurd hi (not_or.mpr ⟨hholding i, hrunning i⟩)
  reading i hi := absurd hi (hreading i)
  held i stage' hstage hopen := .inr ((h.held i stage' hstage hopen).resolve_left (hnot i))
  told hstop i hi := (h.told hstop i hi).imp_left fun howes => howes.mono
    (fun hi => absurd hi (hnot i))
    (fun caller live hcaller hlive => .inl ⟨caller, live, hcaller, hlive⟩) le_rfl

/-- A connection makes a session, which is to be held next. -/
theorem Sound.make (h : s.Sound) (hnot : ∀ i, s.acceptor ≠ .holding i) :
    ({ s.setSession s.accepted (some .made) with
      accepted := s.accepted + 1, acceptor := .holding s.accepted } : Serving ρ α).Sound := by
  have hother : ∀ i ≠ s.accepted, Function.update s.sessions s.accepted
      (some SessionStage.made) i = s.sessions i := fun i hi => Function.update_of_ne hi ..
  refine ⟨fun i hi => ?_, fun i hi => ?_, fun i hi => absurd hi (by simp),
    fun i stage hstage hopen => ?_, fun hstop i hi => ?_⟩
  · have hlt : s.accepted < i := hi
    exact (hother i hlt.ne').trans (h.fresh i hlt.le)
  · obtain rfl : s.accepted = i := by
      simp at hi
      exact hi
    exact Function.update_self ..
  · by_cases hnew : i = s.accepted
    · exact .inl (congrArg AcceptorStage.holding hnew.symm)
    · have hstage' : s.sessions i = some stage := (hother i hnew).symm.trans hstage
      exact .inr ((h.held i stage hstage' hopen).resolve_left (hnot i))
  · by_cases hnew : i = s.accepted
    · exact .inl (.inl (congrArg AcceptorStage.holding hnew.symm))
    · have hi' : s.IsUntold i := by
        have hsame := hother i hnew
        unfold IsUntold at hi ⊢
        simp only [setSession, hsame] at hi
        exact hi
      exact (h.told hstop i hi').imp_left fun howes => howes.mono
        (fun hi => absurd hi (hnot i))
        (fun caller live hcaller hlive => .inl ⟨caller, live, hcaller, hlive⟩) le_rfl

theorem Sound.onAccept (h : s.Sound) (failed : Bool) : (s.onAccept failed).Sound := by
  unfold Serving.onAccept
  cases hacceptor : s.acceptor with
  | holding i => exact h
  | running i => exact h
  | reading i => exact h
  | ended => exact h
  | accepting isPending =>
    have hnot : ∀ i, s.acceptor ≠ .holding i := by simp [hacceptor]
    cases failed with
    | true =>
      refine h.acceptor hnot (fun i => ?_) (fun i => ?_) fun i => ?_
      · split_ifs <;> simp
      · split_ifs <;> simp
      · split_ifs <;> simp
    | false =>
      cases isPending with
      | true => exact h.make hnot
      | false => exact h

/-- `hold` puts a stop on its way to the session where the server is stopping. -/
theorem Sound.hold (h : s.Sound) {i : ℕ} (hacceptor : s.acceptor = .holding i) :
    ({ s.hold i with acceptor := .running i } : Serving ρ α).Sound := by
  refine ⟨h.fresh, fun j hj => ?_, fun j hj => absurd hj (by simp),
    fun j stage hstage hopen => .inr ?_, fun hstop j hj => ?_⟩
  · obtain rfl : i = j := by
      simp at hj
      exact hj
    exact h.made i (.inl hacceptor)
  · refine List.mem_append.mpr ?_
    rcases h.held j stage hstage hopen with hholding | hmem
    · obtain rfl : i = j := AcceptorStage.holding.inj (hacceptor.symm.trans hholding)
      exact .inr List.mem_cons_self
    · have hstage' : s.sessions j = some stage := hstage
      refine .inl (List.mem_filter.mpr ⟨hmem, ?_⟩)
      simp [isExpired, hstage', hopen]
  · have hstops : (s.hold i).stops = Function.update s.stops i (s.stops i + 1) := if_pos hstop
    have hgrow : s.stops j ≤ (s.hold i).stops j := by
      rw [hstops]
      by_cases hji : j = i
      · subst hji
        simp
      · rw [Function.update_of_ne hji]
    refine (h.told hstop j hj).imp_left fun howes => howes.mono (fun hholding => .inr ?_)
      (fun caller live hcaller hlive => .inl ⟨caller, live, hcaller, hlive⟩) hgrow
    obtain rfl : i = j := AcceptorStage.holding.inj (hacceptor.symm.trans hholding)
    show 0 < (s.hold i).stops i
    rw [hstops, Function.update_self]
    exact Nat.succ_pos _

/-- A session that has been held goes on to its first read. -/
theorem Sound.begins (h : s.Sound) (hnot : ∀ j, s.acceptor ≠ .holding j) {i : ℕ}
    {now next : SessionStage ρ α} (hnow : s.sessions i = some now)
    (huntold : now = .made ∨ now = .reading) {stage : AcceptorStage}
    (hholding : ∀ j, stage ≠ .holding j) (hrunning : ∀ j, stage ≠ .running j)
    (hreading : ∀ j, stage = .reading j → j = i ∧ next = .reading) :
    ({ s.setSession i (some next) with acceptor := stage } : Serving ρ α).Sound := by
  have hother : ∀ j ≠ i, Function.update s.sessions i (some next) j = s.sessions j :=
    fun j hj => Function.update_of_ne hj ..
  refine ⟨fun j hj => ?_, fun j hj => absurd hj (not_or.mpr ⟨hholding j, hrunning j⟩),
    fun j hj => ?_, fun j stage' hstage hopen => .inr ?_, fun hstop j hj => ?_⟩
  · have hnone := h.fresh j hj
    have hji : j ≠ i := by
      rintro rfl
      simp [hnow] at hnone
    exact (hother j hji).trans hnone
  · obtain ⟨rfl, rfl⟩ := hreading j hj
    exact Function.update_self ..
  · by_cases hji : j = i
    · rw [hji]
      refine (h.held i now hnow ?_).resolve_left (hnot i)
      rcases huntold with rfl | rfl <;> rfl
    · exact (h.held j stage' ((hother j hji).symm.trans hstage) hopen).resolve_left (hnot j)
  · have hj' : s.IsUntold j := by
      by_cases hji : j = i
      · rw [hji, IsUntold, hnow]
        exact huntold.imp (congrArg some) fun hsame => .inl (congrArg some hsame)
      · have hsame := hother j hji
        unfold IsUntold at hj ⊢
        simp only [setSession, hsame] at hj
        exact hj
    exact (h.told hstop j hj').imp_left fun howes => howes.mono
      (fun hi => absurd hi (hnot j))
      (fun caller live hcaller hlive => .inl ⟨caller, live, hcaller, hlive⟩) le_rfl

theorem Sound.accepts (h : s.Sound) : s.accepts.Sound := by
  unfold Serving.accepts
  cases hacceptor : s.acceptor with
  | holding i => exact h.hold hacceptor
  | running i =>
    refine h.begins (by simp [hacceptor]) (h.made i (.inr hacceptor)) (.inl rfl) (by simp)
      (by simp) fun j hj => ⟨?_, rfl⟩
    exact (AcceptorStage.reading.inj hj).symm
  | reading i =>
    exact h.begins (by simp [hacceptor]) (h.reading i hacceptor) (.inr rfl) (by simp) (by simp)
      (by simp)
  | accepting isPending => exact h
  | ended => exact h

/-- A stop that finds its session before its first read is told early, and one that finds it waiting
cancels what it waits for. -/
theorem Sound.stop (h : s.Sound) (i : ℕ) : (s.stop i).Sound := by
  unfold Serving.stop
  split_ifs with hnone
  · exact h
  have hsession : (s.setSession i ((s.sessions i).map SessionStage.stop)).Sound := by
    refine h.session i rfl rfl rfl fun _ stage hstage => ?_
    cases stage with
    | made => exact .inl rfl
    | reading => exact .inr (.inl rfl)
    | waiting cancelled => simp [SessionStage.stop] at hstage
    | handling request => simp [SessionStage.stop] at hstage
    | writing answer keeps => simp [SessionStage.stop] at hstage
    | closed => simp [SessionStage.stop] at hstage
  refine ⟨hsession.fresh, hsession.made, hsession.reading, hsession.held, fun hstop j hj => ?_⟩
  by_cases hji : j = i
  · subst hji
    -- a session that a stop has found is only untold where no read of it was pending
    have hearly : (s.sessions j).any SessionStage.isEarly = true := by
      unfold IsUntold at hj
      simp only [setSession, setStops, Function.update_self, Option.map_eq_some_iff] at hj
      rcases hj with ⟨stage, hstage, heq⟩ | ⟨stage, hstage, heq⟩ | ⟨stage, hstage, heq⟩ <;>
        cases stage <;> simp_all [SessionStage.stop, SessionStage.isEarly]
    refine .inr ?_
    simp [hearly, setSession, setStops]
  · have hj' := hsession.told hstop j hj
    have hearly : Function.update s.toldEarly i
        ((s.sessions i).any SessionStage.isEarly || s.toldEarly i) j = s.toldEarly j :=
      Function.update_of_ne hji ..
    have hstops : s.stops j = Function.update s.stops i (s.stops i - 1) j :=
      (Function.update_of_ne hji ..).symm
    exact hj'.imp (fun howes => howes.mono .inl
      (fun caller live hcaller hlive => .inl ⟨caller, live, hcaller, hlive⟩) hstops.le)
      hearly.trans

/-- A call of `close` is called or over. -/
theorem Sound.setCloser (h : s.Sound) {caller : ℕ} {stage : Option CloseStage}
    (hnone : ∀ live, s.closers caller = some (.telling live) → live = []) :
    (s.setCloser caller stage).Sound := by
  refine h.same rfl rfl rfl rfl rfl rfl fun i _ howes => howes.mono .inl
    (fun other live hother hlive => .inl ?_) le_rfl
  refine exists_telling_setCloser hother hlive ?_ stage
  rintro rfl
  rw [hnone live hother] at hlive
  simp at hlive

/-- `stopping` is set, and the sessions there are then are to be told. -/
theorem Sound.mark (h : s.Sound) (caller : ℕ) :
    ({ s.setCloser caller (some (.telling s.held)) with
      stopping := true, closings := s.closings + 1 } : Serving ρ α).Sound := by
  refine ⟨h.fresh, h.made, h.reading, h.held, fun _ i hi => .inl ?_⟩
  obtain ⟨stage, hstage, hopen⟩ : ∃ stage, s.sessions i = some stage ∧ stage.isClosed = false := by
    rcases hi with hi | hi | hi
    · exact ⟨_, hi, rfl⟩
    · exact ⟨_, hi, rfl⟩
    · exact ⟨_, hi, rfl⟩
  rcases h.held i stage hstage hopen with hholding | hheld
  · exact .inl hholding
  · exact .inr (.inl ⟨caller, s.held, Function.update_self .., hheld⟩)

/-- The next of the sessions is stopped, unless nothing is left of it. -/
theorem Sound.tell (h : s.Sound) {caller i : ℕ} {live : List ℕ}
    (hcaller : s.closers caller = some (.telling (i :: live))) {s' : Serving ρ α}
    (hs' : s' = if (s.setCloser caller (some (.telling live))).isExpired i
      then s.setCloser caller (some (.telling live))
      else (s.setCloser caller (some (.telling live))).setStops i (s.stops i + 1)) :
    s'.Sound := by
  have hrest : s'.sessions = s.sessions ∧ s'.accepted = s.accepted ∧ s'.held = s.held ∧
      s'.acceptor = s.acceptor ∧ s'.stopping = s.stopping ∧ s'.toldEarly = s.toldEarly ∧
      s'.closers = Function.update s.closers caller (some (.telling live)) := by
    rw [hs']
    split_ifs <;> exact ⟨rfl, rfl, rfl, rfl, rfl, rfl, rfl⟩
  obtain ⟨hsessions, haccepted, hheld, hacceptor, hstopping, hearly, hclosers⟩ := hrest
  have hgrow : ∀ j, s.stops j ≤ s'.stops j := by
    intro j
    rw [hs']
    split_ifs
    · exact le_rfl
    · by_cases hji : j = i
      · subst hji
        simp [setStops]
      · exact (Function.update_of_ne hji ..).ge
  refine h.same hsessions haccepted hheld hacceptor hstopping hearly fun j hj howes =>
    howes.mono (fun hholding => .inl (hacceptor.trans hholding))
      (fun other live' hother hlive => ?_) (hgrow j)
  by_cases hne : other = caller
  · subst hne
    obtain rfl : i :: live = live' := by
      rw [hcaller] at hother
      exact CloseStage.telling.inj (Option.some.inj hother)
    rcases List.mem_cons.mp hlive with rfl | hlive
    · refine .inr ?_
      have hopen : (s.setCloser other (some (.telling live))).isExpired j = false := by
        rcases hj with hj | hj | hj <;>
          simp [isExpired, Serving.setCloser, hj, SessionStage.isClosed]
      rw [hs', hopen]
      simp [setStops]
    · exact .inl ⟨other, live, by rw [hclosers, Function.update_self], hlive⟩
  · exact .inl ⟨other, live', by rw [hclosers, Function.update_of_ne hne, hother], hlive⟩

theorem Sound.closes (h : s.Sound) (caller : ℕ) : (s.closes caller).Sound := by
  unfold Serving.closes
  cases hcaller : s.closers caller with
  | none => exact h
  | some stage =>
    cases stage with
    | leaving => exact h.mark caller
    | telling live =>
      cases live with
      | nil => exact h.setCloser fun live hlive => by simp_all
      | cons i live => exact h.tell hcaller rfl

theorem sound_start : (({} : Serving ρ α)).Sound where
  fresh i _ := rfl
  made i hi := by simp at hi
  reading i hi := by simp at hi
  held i stage hstage _ := by simp at hstage
  told hstop i _ := by simp at hstop

theorem Sound.step (h : s.Sound) (e : ServingEvent ρ α) : (s.step keepAlive e).Sound := by
  cases e with
  | onAccept failed => exact h.onAccept failed
  | accepts => exact h.accepts
  | onRead i request =>
    refine h.session i rfl rfl rfl fun _ stage hstage => ?_
    cases stage <;> cases request <;> simp_all [SessionStage.onRead]
  | write i answer =>
    refine h.session i rfl rfl rfl fun _ stage hstage => ?_
    cases stage <;> cases answer <;> simp_all [SessionStage.write]
  | onWrite i failed =>
    refine h.session i rfl rfl rfl fun hstop stage hstage => ?_
    cases stage <;> simp_all [SessionStage.onWrite]
  | stop i => exact h.stop i
  | close caller =>
    simp only [Serving.step]
    split_ifs with hsome
    · exact h
    · exact h.setCloser fun live hlive => by simp [hlive] at hsome
  | closes caller => exact h.closes caller
  | closeAcceptor =>
    simp only [Serving.step]
    split_ifs
    · exact h
    · exact h.same rfl rfl rfl rfl rfl rfl fun _ _ howes => howes
  | drain => exact h.same rfl rfl rfl rfl rfl rfl fun _ _ howes => howes
  | drains =>
    simp only [Serving.step, Serving.drain]
    split_ifs
    · exact h
    · exact h.same rfl rfl rfl rfl rfl rfl fun _ _ howes => howes
    · exact h.same rfl rfl rfl rfl rfl rfl fun _ _ howes => howes
  | fires caller =>
    simp only [Serving.step]
    by_cases hfires : (s.timing && (s.closers caller).isNone) = true
    · have hcloser : (s.setCloser caller (if s.isOpen then some .leaving else none)).Sound :=
        h.setCloser fun live hlive => by simp [hlive] at hfires
      rw [if_pos hfires]
      exact hcloser.same rfl rfl rfl rfl rfl rfl fun _ _ howes => howes
    · rw [if_neg hfires]
      exact h

/-! ### What a step does to a session -/

/-- How a step changes a session. -/
inductive Change (keepAlive : ρ → Bool) (stopping : Bool) (i : ℕ) :
    ServingEvent ρ α → Option (SessionStage ρ α) → Option (SessionStage ρ α) → Prop where
  | make : Change keepAlive stopping i (.onAccept false) none (some .made)
  | run : Change keepAlive stopping i .accepts (some .made) (some .reading)
  | read : Change keepAlive stopping i .accepts (some .reading) (some (.waiting false))
  | onRead (stage request) :
    Change keepAlive stopping i (.onRead i request) (some stage) (some (stage.onRead request))
  | write (stage answer) : Change keepAlive stopping i (.write i answer) (some stage)
    (some (stage.write keepAlive stopping answer))
  | onWrite (stage failed) : Change keepAlive stopping i (.onWrite i failed) (some stage)
    (some (stage.onWrite stopping failed))
  | stop (stage) : Change keepAlive stopping i (.stop i) (some stage) (some stage.stop)

/-- What a call of `close` leaves as it is, as it goes on. -/
theorem closes_same (s : Serving ρ α) (caller : ℕ) :
    (s.closes caller).sessions = s.sessions ∧ (s.closes caller).acceptor = s.acceptor ∧
      (s.closes caller).isOpen = s.isOpen ∧ (s.closes caller).draining = s.draining ∧
      (s.closes caller).timing = s.timing ∧
      (s.stopping = true → (s.closes caller).stopping = true) := by
  unfold Serving.closes
  cases s.closers caller with
  | none => exact ⟨rfl, rfl, rfl, rfl, rfl, id⟩
  | some stage =>
    cases stage with
    | leaving => exact ⟨rfl, rfl, rfl, rfl, rfl, fun _ => rfl⟩
    | telling live =>
      cases live with
      | nil => exact ⟨rfl, rfl, rfl, rfl, rfl, id⟩
      | cons i live =>
        simp only
        split_ifs <;> exact ⟨rfl, rfl, rfl, rfl, rfl, id⟩

/-- A drain only sets the flag and the timer. -/
theorem drain_same (s : Serving ρ α) : s.drain.sessions = s.sessions ∧
    s.drain.acceptor = s.acceptor ∧ s.drain.isOpen = s.isOpen ∧ s.drain.stopping = s.stopping := by
  unfold Serving.drain
  split_ifs <;> exact ⟨rfl, rfl, rfl, rfl⟩

/-- A stop changes its session only. -/
theorem stop_same (s : Serving ρ α) (i : ℕ) : (s.stop i).acceptor = s.acceptor ∧
    (s.stop i).isOpen = s.isOpen ∧ (s.stop i).stopping = s.stopping ∧
    (s.stop i).draining = s.draining ∧ (s.stop i).timing = s.timing := by
  unfold Serving.stop
  split_ifs <;> exact ⟨rfl, rfl, rfl, rfl, rfl⟩

/-- The strand of the acceptor changes its sessions only. -/
theorem accepts_same (s : Serving ρ α) : s.accepts.isOpen = s.isOpen ∧
    s.accepts.stopping = s.stopping ∧ s.accepts.draining = s.draining ∧
    s.accepts.timing = s.timing := by
  unfold Serving.accepts
  cases s.acceptor <;> exact ⟨rfl, rfl, rfl, rfl⟩

theorem onAccept_same (s : Serving ρ α) (failed : Bool) : (s.onAccept failed).isOpen = s.isOpen ∧
    (s.onAccept failed).stopping = s.stopping ∧ (s.onAccept failed).draining = s.draining ∧
    (s.onAccept failed).timing = s.timing := by
  unfold Serving.onAccept
  cases s.acceptor with
  | accepting isPending => cases failed <;> cases isPending <;> exact ⟨rfl, rfl, rfl, rfl⟩
  | holding i => exact ⟨rfl, rfl, rfl, rfl⟩
  | running i => exact ⟨rfl, rfl, rfl, rfl⟩
  | reading i => exact ⟨rfl, rfl, rfl, rfl⟩
  | ended => exact ⟨rfl, rfl, rfl, rfl⟩

/-- A step of one session leaves the others, and changes its own where there is one. -/
theorem sessions_setSession (s : Serving ρ α) (i j : ℕ) (f : SessionStage ρ α → SessionStage ρ α) :
    (i = j ∧ ∃ stage, s.sessions i = some stage ∧
        (s.setSession j ((s.sessions j).map f)).sessions i = some (f stage)) ∨
      (s.setSession j ((s.sessions j).map f)).sessions i = s.sessions i ∧
        (i = j → s.sessions i = none) := by
  by_cases hij : i = j
  · subst hij
    cases hi : s.sessions i with
    | none => exact .inr ⟨by simp [setSession], fun _ => rfl⟩
    | some stage => exact .inl ⟨rfl, stage, rfl, by simp [setSession]⟩
  · exact .inr ⟨Function.update_of_ne hij .., fun h => absurd h hij⟩

/-- **What a step does to a session.** Where it does nothing to it, nothing is read or done with. -/
theorem Sound.sessions_step (h : s.Sound) (e : ServingEvent ρ α) (i : ℕ) :
    Change keepAlive s.stopping i e (s.sessions i) ((s.step keepAlive e).sessions i) ∨
      (s.step keepAlive e).sessions i = s.sessions i ∧ reads i s e = [] ∧ handles i s e = [] := by
  cases e with
  | onAccept failed =>
    show Change _ _ _ _ _ ((s.onAccept failed).sessions i) ∨ (s.onAccept failed).sessions i = _ ∧ _
    unfold Serving.onAccept
    cases s.acceptor with
    | holding j => exact .inr ⟨rfl, rfl, rfl⟩
    | running j => exact .inr ⟨rfl, rfl, rfl⟩
    | reading j => exact .inr ⟨rfl, rfl, rfl⟩
    | ended => exact .inr ⟨rfl, rfl, rfl⟩
    | accepting isPending =>
      cases failed with
      | true => exact .inr ⟨rfl, rfl, rfl⟩
      | false =>
        cases isPending with
        | false => exact .inr ⟨rfl, rfl, rfl⟩
        | true =>
          by_cases hi : i = s.accepted
          · rw [hi, h.fresh s.accepted le_rfl]
            simp only [Bool.false_eq_true, if_false, if_true, setSession, Function.update_self]
            exact .inl .make
          · exact .inr ⟨Function.update_of_ne hi .., rfl, rfl⟩
  | accepts =>
    show Change _ _ _ _ _ (s.accepts.sessions i) ∨ s.accepts.sessions i = _ ∧ _
    unfold Serving.accepts
    cases hacceptor : s.acceptor with
    | holding j => exact .inr ⟨rfl, rfl, rfl⟩
    | accepting isPending => exact .inr ⟨rfl, rfl, rfl⟩
    | ended => exact .inr ⟨rfl, rfl, rfl⟩
    | running j =>
      by_cases hi : i = j
      · rw [hi, h.made j (.inr hacceptor)]
        simp only [setSession, Function.update_self]
        exact .inl .run
      · exact .inr ⟨Function.update_of_ne hi .., rfl, rfl⟩
    | reading j =>
      by_cases hi : i = j
      · rw [hi, h.reading j hacceptor]
        simp only [setSession, Function.update_self]
        exact .inl .read
      · exact .inr ⟨Function.update_of_ne hi .., rfl, rfl⟩
  | onRead j request =>
    rcases sessions_setSession s i j (·.onRead request) with ⟨rfl, stage, hi, hstep⟩ | ⟨hsame, hno⟩
    · simp only [Serving.step]
      rw [hstep, hi]
      exact .inl (.onRead stage request)
    · refine .inr ⟨hsame, if_neg fun hboth => ?_, rfl⟩
      simp [hno hboth.1.symm] at hboth
  | write j answer =>
    rcases sessions_setSession s i j (·.write keepAlive s.stopping answer) with
      ⟨rfl, stage, hi, hstep⟩ | ⟨hsame, hno⟩
    · simp only [Serving.step]
      rw [hstep, hi]
      exact .inl (.write stage answer)
    · refine .inr ⟨hsame, rfl, ?_⟩
      simp only [handles]
      split_ifs with hj
      · simp [inHand, hno hj.symm]
      · rfl
  | onWrite j failed =>
    rcases sessions_setSession s i j (·.onWrite s.stopping failed) with
      ⟨rfl, stage, hi, hstep⟩ | ⟨hsame, hno⟩
    · simp only [Serving.step]
      rw [hstep, hi]
      exact .inl (.onWrite stage failed)
    · exact .inr ⟨hsame, rfl, rfl⟩
  | stop j =>
    show Change _ _ _ _ _ ((s.stop j).sessions i) ∨ (s.stop j).sessions i = _ ∧ _
    unfold Serving.stop
    split_ifs
    · exact .inr ⟨rfl, rfl, rfl⟩
    · rcases sessions_setSession s i j SessionStage.stop with
        ⟨rfl, stage, hi, hstep⟩ | ⟨hsame, hno⟩
      · refine .inl ?_
        rw [hi]
        exact hstep ▸ Change.stop stage
      · exact .inr ⟨hsame, rfl, rfl⟩
  | close caller =>
    refine .inr ⟨?_, rfl, rfl⟩
    simp only [Serving.step]
    split_ifs <;> rfl
  | closes caller => exact .inr ⟨congrFun (closes_same s caller).1 i, rfl, rfl⟩
  | closeAcceptor =>
    refine .inr ⟨?_, rfl, rfl⟩
    simp only [Serving.step]
    split_ifs <;> rfl
  | drain => exact .inr ⟨rfl, rfl, rfl⟩
  | drains => exact .inr ⟨congrFun (drain_same s).1 i, rfl, rfl⟩
  | fires caller =>
    refine .inr ⟨?_, rfl, rfl⟩
    simp only [Serving.step]
    split_ifs <;> rfl

/-- A request that is read is in hand until it is handled. -/
theorem Sound.inHand_step (h : s.Sound) (i : ℕ) (e : ServingEvent ρ α) :
    inHand i s ++ reads i s e = handles i s e ++ inHand i (s.step keepAlive e) := by
  rcases h.sessions_step keepAlive e i with hchange | ⟨hsame, hreads, hhandles⟩
  · unfold inHand
    generalize hnext : (s.step keepAlive e).sessions i = next at hchange ⊢
    generalize hnow : s.sessions i = now at hchange ⊢
    cases hchange with
    | make => simp [reads, handles, SessionStage.request?]
    | run => simp [reads, handles, SessionStage.request?]
    | read => simp [reads, handles, SessionStage.request?]
    | onRead stage request =>
      cases stage <;> cases request <;>
        simp [reads, handles, hnow, SessionStage.request?, SessionStage.onRead,
          SessionStage.isWaiting]
    | write stage answer =>
      cases stage <;> cases answer <;>
        simp [reads, handles, inHand, hnow, SessionStage.request?, SessionStage.write]
    | onWrite stage failed =>
      cases stage with
      | writing answer keeps =>
        simp only [SessionStage.onWrite]
        split_ifs <;> simp [reads, handles, SessionStage.request?]
      | made => simp [reads, handles, SessionStage.request?, SessionStage.onWrite]
      | reading => simp [reads, handles, SessionStage.request?, SessionStage.onWrite]
      | waiting cancelled => simp [reads, handles, SessionStage.request?, SessionStage.onWrite]
      | handling request => simp [reads, handles, SessionStage.request?, SessionStage.onWrite]
      | closed => simp [reads, handles, SessionStage.request?, SessionStage.onWrite]
    | stop stage => simp [reads, handles]
  · simp [inHand, hsame, hreads, hhandles]

/-- Once the server is stopping a session only goes on to what is left to it. -/
theorem Sound.left_step_le (h : s.Sound) (hstop : s.stopping = true) (i : ℕ)
    (e : ServingEvent ρ α) : left i (s.step keepAlive e) ≤ left i s := by
  rcases h.sessions_step keepAlive e i with hchange | ⟨hsame, -, -⟩
  · unfold left
    rw [hstop] at hchange
    generalize (s.step keepAlive e).sessions i = next at hchange ⊢
    generalize s.sessions i = now at hchange ⊢
    cases hchange with
    | make => exact le_rfl
    | run => exact Nat.le_succ 3
    | read => exact le_rfl
    | onRead stage request => exact stage.left_onRead_le request
    | write stage answer => exact stage.left_write_le answer
    | onWrite stage failed => exact stage.left_onWrite_le failed
    | stop stage => exact stage.left_stop.le
  · rw [left, left, hsame]

theorem Sound.moves_step (h : s.Sound) (hstop : s.stopping = true) (i : ℕ)
    (e : ServingEvent ρ α) :
    (moves keepAlive i s e).length + left i (s.step keepAlive e) ≤ left i s := by
  have hle := h.left_step_le keepAlive hstop i e
  unfold moves
  split_ifs with hsame
  · simpa using hle
  · simp only [List.length_singleton]
    omega

theorem left_le (i : ℕ) (s : Serving ρ α) : left i s ≤ 4 := by
  unfold left
  cases s.sessions i with
  | none => exact le_rfl
  | some stage => cases stage <;> simp [SessionStage.left]

/-- The reads that are left to a session whose server is stopping. -/
def readsLeft (i : ℕ) (s : Serving ρ α) : ℕ := if 3 ≤ left i s then 1 else 0

theorem Sound.readsLeft_step (h : s.Sound) (hstop : s.stopping = true) (i : ℕ)
    (e : ServingEvent ρ α) :
    (reads i s e).length + readsLeft i (s.step keepAlive e) ≤ readsLeft i s := by
  have hle := h.left_step_le keepAlive hstop i e
  by_cases hnone : reads i s e = []
  · unfold readsLeft
    rw [hnone]
    split_ifs <;> simp_all
    omega
  -- what is read is in hand, where nothing is read again
  have hreads : ∃ request cancelled, e = .onRead i (some request) ∧
      s.sessions i = some (.waiting cancelled) := by
    cases e with
    | onRead j request =>
      simp only [reads] at hnone
      split_ifs at hnone with hboth
      · obtain ⟨rfl, hwaits⟩ := hboth
        cases request with
        | none => simp at hnone
        | some request =>
          cases hstage : s.sessions j with
          | none => simp [hstage] at hwaits
          | some stage =>
            cases stage with
            | waiting cancelled => exact ⟨request, cancelled, rfl, rfl⟩
            | made => simp [hstage, SessionStage.isWaiting] at hwaits
            | reading => simp [hstage, SessionStage.isWaiting] at hwaits
            | handling request => simp [hstage, SessionStage.isWaiting] at hwaits
            | writing answer keeps => simp [hstage, SessionStage.isWaiting] at hwaits
            | closed => simp [hstage, SessionStage.isWaiting] at hwaits
      · simp at hnone
    | onAccept failed => simp [reads] at hnone
    | accepts => simp [reads] at hnone
    | write j answer => simp [reads] at hnone
    | onWrite j failed => simp [reads] at hnone
    | stop j => simp [reads] at hnone
    | close caller => simp [reads] at hnone
    | closes caller => simp [reads] at hnone
    | closeAcceptor => simp [reads] at hnone
    | drain => simp [reads] at hnone
    | drains => simp [reads] at hnone
    | fires caller => simp [reads] at hnone
  obtain ⟨request, cancelled, rfl, hstage⟩ := hreads
  have hnow : left i s = 3 := by simp [left, hstage, SessionStage.left]
  have hnext : left i (s.step keepAlive (.onRead i (some request))) = 2 := by
    simp [left, Serving.step, setSession, hstage, SessionStage.onRead, SessionStage.left]
  simp [readsLeft, hnow, hnext, reads, hstage, SessionStage.isWaiting]

theorem stopping_step (s : Serving ρ α) (e : ServingEvent ρ α) (hstop : s.stopping = true) :
    (s.step keepAlive e).stopping = true := by
  cases e with
  | onAccept failed => exact (onAccept_same s failed).2.1.trans hstop
  | accepts => exact (accepts_same s).2.1.trans hstop
  | stop i => exact (stop_same s i).2.2.1.trans hstop
  | closes caller => exact (closes_same s caller).2.2.2.2.2 hstop
  | drains => exact (drain_same s).2.2.2.trans hstop
  | onRead i request => exact hstop
  | write i answer => exact hstop
  | onWrite i failed => exact hstop
  | drain => exact hstop
  | close caller =>
    simp only [Serving.step]
    split_ifs <;> exact hstop
  | closeAcceptor =>
    simp only [Serving.step]
    split_ifs <;> exact hstop
  | fires caller =>
    simp only [Serving.step]
    split_ifs <;> exact hstop

theorem isOpen_step (s : Serving ρ α) (e : ServingEvent ρ α) (hclosed : s.isOpen = false) :
    (s.step keepAlive e).isOpen = false := by
  cases e with
  | onAccept failed => exact (onAccept_same s failed).1.trans hclosed
  | accepts => exact (accepts_same s).1.trans hclosed
  | stop i => exact (stop_same s i).2.1.trans hclosed
  | closes caller => exact (closes_same s caller).2.2.1.trans hclosed
  | drains => exact (drain_same s).2.2.1.trans hclosed
  | onRead i request => exact hclosed
  | write i answer => exact hclosed
  | onWrite i failed => exact hclosed
  | drain => exact hclosed
  | close caller =>
    simp only [Serving.step]
    split_ifs <;> exact hclosed
  | closeAcceptor =>
    simp only [Serving.step]
    split_ifs
    · exact hclosed
    · rfl
  | fires caller =>
    simp only [Serving.step]
    split_ifs <;> exact hclosed

/-- The accepts that are left to an acceptor that is closed. -/
def makesLeft (s : Serving ρ α) : ℕ := if s.acceptor = .accepting true then 1 else 0

theorem makesLeft_congr {s s' : Serving ρ α} (h : s'.acceptor = s.acceptor) :
    0 + makesLeft s' ≤ makesLeft s := by
  rw [Nat.zero_add, makesLeft, h, makesLeft]

theorem makesLeft_step {s : Serving ρ α} (hclosed : s.isOpen = false) (e : ServingEvent ρ α) :
    (makes s e).length + makesLeft (s.step keepAlive e) ≤ makesLeft s := by
  cases e with
  | onAccept failed =>
    simp only [Serving.step, Serving.onAccept]
    cases hacceptor : s.acceptor with
    | accepting isPending =>
      cases failed <;> cases isPending <;> simp [makes, makesLeft, hacceptor, hclosed, setSession]
    | holding i => simp [makes, makesLeft, hacceptor]
    | running i => simp [makes, makesLeft, hacceptor]
    | reading i => simp [makes, makesLeft, hacceptor]
    | ended => simp [makes, makesLeft, hacceptor]
  | accepts =>
    simp only [Serving.step, Serving.accepts]
    cases hacceptor : s.acceptor <;> simp [makes, makesLeft, hacceptor, hclosed]
  | stop i => exact makesLeft_congr (stop_same s i).1
  | closes caller => exact makesLeft_congr (closes_same s caller).2.1
  | drains => exact makesLeft_congr (drain_same s).2.1
  | onRead i request => exact makesLeft_congr rfl
  | write i answer => exact makesLeft_congr rfl
  | onWrite i failed => exact makesLeft_congr rfl
  | drain => exact makesLeft_congr rfl
  | close caller =>
    simp only [Serving.step]
    split_ifs <;> exact makesLeft_congr rfl
  | closeAcceptor =>
    simp only [Serving.step]
    split_ifs <;> exact makesLeft_congr rfl
  | fires caller =>
    simp only [Serving.step]
    split_ifs <;> exact makesLeft_congr rfl

/-- The calls of `close` that are left to the drain timer, which is armed where nothing drains
yet. -/
def timesLeft (s : Serving ρ α) : ℕ := if s.draining && !s.timing then 0 else 1

theorem timesLeft_congr {s s' : Serving ρ α} (hdraining : s'.draining = s.draining)
    (htiming : s'.timing = s.timing) : 0 + timesLeft s' ≤ timesLeft s := by
  rw [Nat.zero_add, timesLeft, hdraining, htiming, timesLeft]

/-- The timer is armed by a drain only. -/
def Timed (s : Serving ρ α) : Prop := s.timing = true → s.draining = true

theorem timesLeft_step {s : Serving ρ α} (h : s.Timed) (e : ServingEvent ρ α) :
    (s.step keepAlive e).Timed ∧
      (timesOut s e).length + timesLeft (s.step keepAlive e) ≤ timesLeft s := by
  have hsame : ∀ s' : Serving ρ α, s'.draining = s.draining → s'.timing = s.timing →
      s'.Timed ∧ 0 + timesLeft s' ≤ timesLeft s := fun s' hdraining htiming =>
    ⟨fun ht => hdraining.trans (h (htiming.symm.trans ht)), timesLeft_congr hdraining htiming⟩
  cases e with
  | onAccept failed => exact hsame _ (onAccept_same s failed).2.2.1 (onAccept_same s failed).2.2.2
  | accepts => exact hsame _ (accepts_same s).2.2.1 (accepts_same s).2.2.2
  | stop i => exact hsame _ (stop_same s i).2.2.2.1 (stop_same s i).2.2.2.2
  | closes caller =>
    exact hsame _ (closes_same s caller).2.2.2.1 (closes_same s caller).2.2.2.2.1
  | onRead i request => exact hsame _ rfl rfl
  | write i answer => exact hsame _ rfl rfl
  | onWrite i failed => exact hsame _ rfl rfl
  | drain => exact hsame _ rfl rfl
  | close caller =>
    simp only [Serving.step]
    split_ifs <;> exact hsame _ rfl rfl
  | closeAcceptor =>
    simp only [Serving.step]
    split_ifs
    · exact hsame _ rfl rfl
    · refine ⟨fun ht => by simp at ht, ?_⟩
      cases hdraining : s.draining <;> simp [timesOut, timesLeft, hdraining]
  | drains =>
    simp only [Serving.step, Serving.drain]
    split_ifs with hnone hpassed
    · exact hsame _ rfl rfl
    · exact hsame _ rfl rfl
    · refine ⟨fun _ => rfl, ?_⟩
      have hdraining : s.draining = false := by
        cases hd : s.draining <;> simp_all
      simp [timesOut, timesLeft, hdraining]
  | fires caller =>
    simp only [Serving.step]
    by_cases hfires : (s.timing && (s.closers caller).isNone) = true
    · have htiming : s.timing = true := (Bool.and_eq_true_iff.mp hfires).1
      have hdraining : s.draining = true := h htiming
      rw [if_pos hfires]
      refine ⟨fun ht => by simp at ht, ?_⟩
      have hcalls : timesOut s (.fires caller) = [()] := if_pos hfires
      simp [hcalls, timesLeft, htiming, hdraining, Serving.setCloser]
    · rw [if_neg hfires]
      exact ⟨h, by simp [timesOut, hfires]⟩

end

end Serving

section

open Serving

/-- **A server that stops serves what it has read, and reads nothing after.** Whatever order its
strands, the calls of `close` and the connections come in: each session handles just the requests it
reads, in their order. Once the server is stopping, a session that waits and is not cancelled has a
stop on its way, unless one was run before its first read was pending; it reads one request more at
the most, and goes on four times at the most. An acceptor that is closed accepts one connection more
at the most, and the drain timer calls `close` no more than once. -/
theorem serving_ends (keepAlive : ρ → Bool) (es : List (ServingEvent ρ α)) :
    let s := run (step keepAlive) {} es
    (∀ i, history (step keepAlive) (reads i) {} es =
      history (step keepAlive) (handles i) {} es ++ s.inHand i) ∧
    (s.stopping = true → ∀ i,
      (s.sessions i = some (.waiting false) → s.Owes i ∨ s.toldEarly i = true) ∧
      ∀ es', (history (step keepAlive) (reads i) s es').length ≤ 1 ∧
        (history (step keepAlive) (moves keepAlive i) s es').length ≤ 4) ∧
    (s.isOpen = false → ∀ es', (history (step keepAlive) makes s es').length ≤ 1) ∧
    (history (step keepAlive) timesOut {} es).length ≤ 1 := by
  intro s
  have hall : Throughout (step keepAlive) (fun _ _ => True) {} es := throughout_true _ es
  have hkeep : ∀ (s : Serving ρ α) e, s.Sound → True → (step keepAlive s e).Sound :=
    fun s e h _ => h.step keepAlive e
  have hsound : s.Sound := hall.invariant hkeep sound_start
  refine ⟨fun i => ?_, fun hstop i => ⟨fun hwaits => hsound.told hstop i (.inr (.inr hwaits)),
    fun es' => ⟨?_, ?_⟩⟩, fun hclosed es' => ?_, ?_⟩
  · have hconserved := hall.conserves (inHand i) hkeep
      (fun s e h _ => h.inHand_step keepAlive i e) sound_start
    simpa [inHand] using hconserved
  · have hspent := (throughout_true s es').spends_within (readsLeft i)
      (I := fun s => s.Sound ∧ s.stopping = true)
      (fun s e h _ => ⟨h.1.step keepAlive e, stopping_step keepAlive s e h.2⟩)
      (fun s e h _ => h.1.readsLeft_step keepAlive h.2 i e) ⟨hsound, hstop⟩
    refine hspent.trans ?_
    unfold readsLeft
    split_ifs <;> simp
  · have hspent := (throughout_true s es').spends_within (left i)
      (I := fun s => s.Sound ∧ s.stopping = true)
      (fun s e h _ => ⟨h.1.step keepAlive e, stopping_step keepAlive s e h.2⟩)
      (fun s e h _ => h.1.moves_step keepAlive h.2 i e) ⟨hsound, hstop⟩
    exact hspent.trans (left_le i s)
  · have hspent := (throughout_true s es').spends_within makesLeft
      (I := fun s : Serving ρ α => s.isOpen = false)
      (fun s e h _ => isOpen_step keepAlive s e h)
      (fun s e h _ => makesLeft_step keepAlive h e) hclosed
    refine hspent.trans ?_
    unfold makesLeft
    split_ifs <;> simp
  · exact hall.spends_within timesLeft (fun s e h _ => (timesLeft_step keepAlive h e).1)
      (fun s e h _ => (timesLeft_step keepAlive h e).2) (show Timed {} from fun h => by simp at h)

/-- A connection that is accepted as the server is stopping, and told with its read to begin. -/
example : (run (step fun _ : Unit => true) ({} : Serving Unit Unit)
    [.close 0, .closes 0, .onAccept false, .accepts, .accepts, .stop 0, .accepts]).sessions 0 =
      some (.waiting false) := rfl

end

end AsyncDatabase
