import AsyncDatabase.Library.Monitors

/-!
# The relay between the asking and the taking

A file on its way waits in a slot for one, between the thread that asks for files and the one that
takes them in (`transfer/relay.cpp`): who puts waits for the slot to be free, who takes waits for a
file or for the relay to be closed. Any number of threads may put and take. `relay_hands_over` says
what they hand each other, and `relay_wakes` that none of them sleeps through what it waits for.
-/

namespace AsyncDatabase

open Machine

/-- `transfer::relay`, without its mutex and its condition variables. -/
structure Relay (α : Type*) where
  slot : Option α := none
  closed : Bool := false

inductive RelayCondition where
  | filled
  | emptied
  deriving DecidableEq

inductive RelayCall (α : Type*) where
  | put (file : α)
  | take
  | close

/-- What a call returns: nothing, or what `take` does. -/
inductive RelayAnswer (α : Type*) where
  | done
  | taken (file : Option α)

namespace Relay

variable {α : Type*}

def waitsOn : RelayCall α → Option RelayCondition
  | .put _ => some .emptied
  | .take => some .filled
  | .close => none

def opens (r : Relay α) : RelayCondition → Bool
  | .filled => r.slot.isSome || r.closed
  | .emptied => r.slot.isNone

def act (r : Relay α) : RelayCall α → Relay α
  | .put file => { r with slot := some file }
  | .take => { r with slot := none }
  | .close => { r with closed := true }

def result (r : Relay α) : RelayCall α → RelayAnswer α
  | .put _ | .close => .done
  | .take => .taken r.slot

/-- What is notified once the mutex is given back. A `take` that finds nothing returns before. -/
def notifies (r : Relay α) : RelayCall α → Option (RelayCondition × Bool)
  | .put _ => some (.filled, false)
  | .take => if r.slot.isSome then some (.emptied, false) else none
  | .close => some (.filled, true)

def monitor : Monitor (Relay α) RelayCondition (RelayCall α) (RelayAnswer α) where
  waitsOn := waitsOn
  opens c r := r.opens c
  act call r := r.act call
  result call r := r.result call
  notifies call r := r.notifies call

/-- The one thing that is there for good. -/
def Settled (c : RelayCondition) (r : Relay α) : Prop := c = .filled ∧ r.closed = true

/-- Whatever makes room or brings a file says so to one that may wait for it, and the end of the
files is told to all. -/
theorem signals : (monitor (α := α)).Signals Settled where
  opens_of_settled c r h := by
    obtain ⟨rfl, hclosed⟩ := h
    simp [monitor, opens, hclosed]
  settled_act call c r _ h := by
    obtain ⟨rfl, hclosed⟩ := h
    cases call <;> exact ⟨rfl, by simp [monitor, act, hclosed]⟩
  notifies_all call c r _ h := by
    obtain ⟨rfl, hclosed⟩ := h
    cases call with
    | put file => exact .inl ⟨rfl, hclosed⟩
    | take => exact .inl ⟨rfl, hclosed⟩
    | close => exact .inr rfl
  notifies call c r hready hopens := by
    cases call with
    | put file =>
      cases c with
      | filled => exact .inr (.inl ⟨false, rfl⟩)
      | emptied => simp [monitor, opens, act] at hopens
    | take =>
      cases c with
      | filled =>
        -- It has left the slot empty, so the relay is closed.
        exact .inl ⟨rfl, by simpa [monitor, opens, act] using hopens⟩
      | emptied =>
        cases hslot : r.slot with
        | none => exact .inr (.inr ⟨by simp [monitor, opens, hslot], by simp [monitor, waitsOn]⟩)
        | some file => exact .inr (.inl ⟨false, by simp [monitor, notifies, hslot]⟩)
    | close =>
      cases c with
      | filled => exact .inl ⟨rfl, rfl⟩
      | emptied => exact .inr (.inr ⟨hopens, by simp [monitor, waitsOn]⟩)

/-! ### What is handed over -/

/-- The file a call brings. -/
def brings : RelayCall α → List α
  | .put file => [file]
  | .take | .close => []

/-- The file an answer takes away. -/
def takes : RelayAnswer α → List α
  | .done => []
  | .taken file => file.toList

variable {ι : Type*}

/-- The threads that use a relay. -/
abbrev Threads (α ι : Type*) :=
  Monitor.Threads (Relay α) RelayCondition (RelayCall α) (RelayAnswer α) ι

abbrev Event (α ι : Type*) := Monitor.Event (RelayCall α) ι

/-- The files that a step puts in the slot. -/
def puts (s : Threads α ι) (e : Event α ι) : List α :=
  (Monitor.effects s e).flatMap fun made => brings made.2

/-- The files that a step takes out of it. -/
def takesOut (s : Threads α ι) (e : Event α ι) : List α :=
  (Monitor.effects s e).flatMap fun made => takes (s.state.result made.2)

/-- Whether a step finds that there are no more files. -/
def FindsEnd (s : Threads α ι) (e : Event α ι) : Prop :=
  ∃ made ∈ Monitor.effects s e, s.state.result made.2 = .taken none

variable [DecidableEq ι] [Fintype ι]

/-- What is in the slot and what is put there is taken out, or is there then. -/
theorem slot_step {s : Threads α ι} (h : monitor.Held s) (e : Event α ι) :
    s.state.slot.toList ++ puts s e = takesOut s e ++ (monitor.step s e).state.slot.toList := by
  have hready := h.ready e
  rw [Monitor.state_step, puts, takesOut]
  rcases Monitor.effects_cases s e with hnone | ⟨⟨thread, call⟩, hmade⟩
  · simp [hnone]
  · rw [hmade] at hready ⊢
    obtain ⟨hready, -⟩ := hready
    cases call with
    | put file =>
      have hfree : s.state.slot = none := by
        simpa [Monitor.ready, monitor, waitsOn, opens] using hready
      simp [hfree, brings, takes, result, Monitor.make, monitor, act]
    | take => simp [brings, takes, result, Monitor.make, monitor, act]
    | close => simp [brings, takes, result, Monitor.make, monitor, act]

omit [DecidableEq ι] [Fintype ι] in
theorem closed_of_findsEnd {s : Threads α ι} (h : monitor.Held s) {e : Event α ι}
    (hend : FindsEnd s e) : s.state.closed = true ∧ s.state.slot = none := by
  have hready := h.ready e
  obtain ⟨⟨thread, call⟩, hmem, hnone⟩ := hend
  rcases Monitor.effects_cases s e with hmade | ⟨made, hmade⟩
  · simp [hmade] at hmem
  · rw [hmade] at hmem hready
    obtain rfl := List.mem_singleton.mp hmem
    obtain ⟨hready, -⟩ := hready
    cases call with
    | put file => simp [result] at hnone
    | close => simp [result] at hnone
    | take =>
      have hslot : s.state.slot = none := by simpa [result] using hnone
      exact ⟨by simpa [Monitor.ready, monitor, waitsOn, opens, hslot] using hready, hslot⟩

/-! ### Runs -/

theorem held_step (s : Threads α ι) (e : Event α ι) (h : monitor.Held s) (_ : True) :
    monitor.Held (monitor.step s e) :=
  h.step e

theorem held_run (es : List (Event α ι)) :
    monitor.Held (run monitor.step ({ state := {} } : Threads α ι) es) :=
  (throughout_true _ es).invariant held_step (Monitor.held_start _)

theorem minded_run (es : List (Event α ι)) :
    monitor.Held (run monitor.step ({ state := {} } : Threads α ι) es) ∧
      monitor.Minded Settled (run monitor.step ({ state := {} } : Threads α ι) es) :=
  Throughout.invariant (I := fun s : Threads α ι => monitor.Held s ∧ monitor.Minded Settled s)
    (fun _ e h _ => ⟨h.1.step e, h.2.step signals h.1 e⟩)
    ⟨Monitor.held_start _, Monitor.minded_start _⟩ (throughout_true _ es)

/-- **Files are handed over in order.** However many threads put and take, and however they get in
one another's way: the files that are taken are those that were put, in their order and each once,
but for one that waits in the slot; each call returns what it did where it was made; and who finds
that there are no more finds it once the relay is closed, and everything put before is taken. -/
theorem relay_hands_over (es : List (Event α ι)) :
    let start : Threads α ι := { state := {} }
    let s := run monitor.step start es
    history monitor.step puts start es =
        history monitor.step takesOut start es ++ s.state.slot.toList ∧
      (∀ thread, history monitor.step (Monitor.answers monitor thread) start es =
        history monitor.step (Monitor.returns monitor thread) start es ++ s.pending thread) ∧
      ∀ e, FindsEnd s e → s.state.closed = true ∧
        history monitor.step puts start es = history monitor.step takesOut start es := by
  intro start s
  have hall : Throughout monitor.step (fun _ _ => True) start es := throughout_true _ es
  have hslot : history monitor.step puts start es =
      history monitor.step takesOut start es ++ s.state.slot.toList := by
    have hconserved := hall.conserves (fun s : Threads α ι => s.state.slot.toList) held_step
      (fun s e h _ => slot_step h e) (Monitor.held_start {})
    exact hconserved
  refine ⟨hslot, fun thread => ?_, fun e hend => ?_⟩
  · have hconserved := hall.conserves (Monitor.Threads.pending thread) held_step
      (fun s e _ _ => Monitor.pending_step s thread e) (Monitor.held_start {})
    exact hconserved
  · obtain ⟨hclosed, hnone⟩ := closed_of_findsEnd (held_run es) hend
    refine ⟨hclosed, ?_⟩
    rw [hslot, hnone]
    exact List.append_nil _

omit [DecidableEq ι] in
/-- Who waits where nobody can go on. -/
theorem stuck_cases {s : Threads α ι} (hheld : monitor.Held s) (h : monitor.Minded Settled s)
    (hstuck : ∀ thread chosen stage, s.stages thread = some stage →
      s.moves monitor chosen stage = false) :
    (∀ thread stage, s.stages thread = some stage →
        s.state.slot.isSome = true ∧ ∃ file, stage = .asleep (.put file)) ∨
      ∀ thread stage, s.stages thread = some stage →
        s.state.slot = none ∧ s.state.closed = false ∧ stage = .asleep .take := by
  have hshut := fun thread stage (hstage : s.stages thread = some stage) =>
    Monitor.shut_of_stuck hheld h hstuck hstage
  cases hslot : s.state.slot with
  | some file =>
    refine .inl fun thread stage hstage => ⟨rfl, ?_⟩
    obtain ⟨call, c, rfl, hwaits, hopens⟩ := hshut thread stage hstage
    cases call with
    | put file => exact ⟨file, rfl⟩
    | take =>
      obtain rfl : .filled = c := Option.some.inj hwaits
      simp [monitor, opens, hslot] at hopens
    | close => simp [monitor, waitsOn] at hwaits
  | none =>
    refine .inr fun thread stage hstage => ⟨rfl, ?_⟩
    obtain ⟨call, c, rfl, hwaits, hopens⟩ := hshut thread stage hstage
    cases call with
    | put file =>
      obtain rfl : .emptied = c := Option.some.inj hwaits
      simp [monitor, opens, hslot] at hopens
    | take =>
      obtain rfl : .filled = c := Option.some.inj hwaits
      exact ⟨by simpa [monitor, opens, hslot] using hopens, rfl⟩
    | close => simp [monitor, waitsOn] at hwaits

/-- **Nobody sleeps through what is there.** In any state that any run gets to: where no thread can
take a step, either all that are in a call wait to put a file and the slot is full, or all wait to
take one and there is none, and the relay is open. And a run has no more steps than its calls and
its waits that end for no reason give rise to. -/
theorem relay_wakes (es : List (Event α ι)) :
    let start : Threads α ι := { state := {} }
    let s := run monitor.step start es
    ((∀ thread chosen stage, s.stages thread = some stage → s.moves monitor chosen stage = false) →
      (∀ thread stage, s.stages thread = some stage →
        s.state.slot.isSome = true ∧ ∃ file, stage = .asleep (.put file)) ∨
      ∀ thread stage, s.stages thread = some stage →
        s.state.slot = none ∧ s.state.closed = false ∧ stage = .asleep .take) ∧
    (history monitor.step (Monitor.Threads.moved monitor) start es).length ≤
      (es.map (Monitor.Event.adds (Fintype.card ι))).sum := by
  intro start s
  refine ⟨fun hstuck => stuck_cases (minded_run es).1 (minded_run es).2 hstuck, ?_⟩
  · have hsteps := Monitor.moved_add_potential_le (m := monitor) start es
    have hnothing : start.potential = 0 := by
      simp [start, Monitor.Threads.potential, Monitor.Threads.left]
    omega

end Relay

end AsyncDatabase
