import AsyncDatabase.Library.Refinement
import AsyncDatabase.Library.Bytes

/-!
# Exchanges over kept connections

A request takes a connection to where it goes out of a pool (`http/pool.cpp`, which a thread has to
itself, and `http/shared_pool.cpp`), is exchanged for its answer on it (`exchange` of
`http/beast_client.cpp`), and hands it back. Any number of exchanges are under way at once, and
connections fail, and are ended where they go, at any time. `exchanges_answer` says that each
exchange comes to the answer to its own request, and how often that is sent.
-/

namespace AsyncDatabase

open Machine

variable {α : Type}

/-- `http::connection`, with what is on its way there and back. -/
structure Link (α : Type) where
  host : Bytes
  port : Bytes
  isOpen : Bool := false
  idleSince : ℕ := 0
  /-- The exchanges whose requests were written on it, and are not answered. -/
  asked : List ℕ := []
  /-- The answers that have come, each with the exchange whose request it answers. -/
  arrived : List (ℕ × α) := []
  /-- `parser.got_some()`: part of an answer was read. -/
  hasBegun : Bool := false
  /-- It was closed where it goes. -/
  isEnded : Bool := false

namespace Link

def goesTo (link : Link α) (host port : Bytes) : Bool := link.host = host && link.port = port

/-- `max_idle`, in seconds. -/
def maxIdle : ℕ := 45

/-- `is_reusable`. There is something to read where the other end closed it, or answered what nobody
asked. -/
def isReusable (link : Link α) (now : ℕ) : Bool :=
  link.isOpen && decide (now - link.idleSince < maxIdle) && link.arrived.isEmpty && !link.isEnded

/-- `connect`, which opens it with nothing on it. -/
def connect (link : Link α) : Link α := { host := link.host, port := link.port, isOpen := true }

/-- `close`. -/
def close (link : Link α) : Link α := { host := link.host, port := link.port }

/-- Nothing is on its way, and nothing is left of an answer. -/
structure IsClean (link : Link α) : Prop where
  asked : link.asked = []
  arrived : link.arrived = []
  hasBegun : link.hasBegun = false

end Link

/-- The pool of a thread, or of an `io_context`. -/
inductive PoolKind where
  | ofThread
  | shared

/-- `connection_cache`. -/
def PoolKind.connectionCache : PoolKind → ℕ
  | .ofThread => 64
  | .shared => 256

/-- Where an exchange is. -/
inductive ExchangeStage (α : Type) where
  | connecting
  | writing
  | reading
  /-- It has its answer, with the exchange whose request that answers, or the error it failed in. -/
  | answered (answer : Option (ℕ × α))
  /-- The connection was handed back. -/
  | kept (answer : Option (ℕ × α))

/-- `exchange`, and the connection it has to itself. -/
structure Exchange (α : Type) where
  /-- Where the request goes. -/
  host : Bytes
  port : Bytes
  link : Link α
  /-- `answer.reused`. -/
  reused : Bool
  stage : ExchangeStage α

/-- A pool with the exchanges that use it. -/
structure Pooled (α : Type) where
  idle : List (Link α) := []
  exchanges : ℕ → Option (Exchange α) := fun _ => none
  /-- The seconds that have passed. -/
  clock : ℕ := 0

inductive PooledEvent (α : Type) where
  /-- An exchange begins, with a connection out of the pool. -/
  | take (exchange : ℕ) (host port : Bytes)
  | connects (exchange : ℕ)
  | writes (exchange : ℕ)
  /-- What the exchange awaits fails. -/
  | fails (exchange : ℕ)
  /-- The other end of its connection answers the first of what it was asked. -/
  | answers (exchange : ℕ) (answer : α)
  /-- Part of an answer is read. -/
  | begins (exchange : ℕ)
  /-- The answer is read, which keeps the connection or does not. -/
  | reads (exchange : ℕ) (keepAlive : Bool)
  /-- The exchange is over, and its connection is handed back. -/
  | keep (exchange : ℕ)
  /-- The other end of an idle connection closes it. -/
  | ends (index : ℕ)
  | passes (seconds : ℕ)

namespace Exchange

/-- A connection is open already, or is to be opened first. -/
def start (host port : Bytes) (link : Link α) : Exchange α where
  host := host
  port := port
  link := link
  reused := link.isOpen
  stage := if link.isOpen then .writing else .connecting

def connects (e : Exchange α) : Exchange α :=
  match e.stage with
  | .connecting => { e with link := e.link.connect, stage := .writing }
  | .writing | .reading | .answered _ | .kept _ => e

def writes (e : Exchange α) (k : ℕ) : Exchange α :=
  match e.stage with
  | .writing =>
    { e with link := { e.link with asked := e.link.asked ++ [k] }, stage := .reading }
  | .connecting | .reading | .answered _ | .kept _ => e

/-- What failed is made again once, where the connection was reused and nothing of an answer was
read. -/
def fails (e : Exchange α) : Exchange α :=
  match e.stage with
  | .connecting | .writing | .reading =>
    if !e.reused || e.link.hasBegun then { e with link := e.link.close, stage := .answered none }
    else { e with link := e.link.close, reused := false, stage := .connecting }
  | .answered _ | .kept _ => e

def answers (e : Exchange α) (answer : α) : Exchange α :=
  match e.link.asked with
  | [] => e
  | k :: asked =>
    { e with link := { e.link with asked, arrived := e.link.arrived ++ [(k, answer)] } }

def begins (e : Exchange α) : Exchange α :=
  match e.stage with
  | .reading => { e with link := { e.link with hasBegun := true } }
  | .connecting | .writing | .answered _ | .kept _ => e

def reads (e : Exchange α) (keepAlive : Bool) : Exchange α :=
  match e.stage, e.link.arrived with
  | .reading, answer :: arrived =>
    let link := { e.link with arrived, hasBegun := false }
    { e with link := if keepAlive then link else link.close, stage := .answered (some answer) }
  | .reading, [] => e
  | .connecting, _ => e
  | .writing, _ => e
  | .answered _, _ => e
  | .kept _, _ => e

/-- What is sent where the exchange writes. -/
def sends? (e : Exchange α) : Option Bool :=
  match e.stage with
  | .writing => some e.reused
  | .connecting | .reading | .answered _ | .kept _ => none

/-- What the exchange may still send, by whether the connection is reused. -/
def plan (e : Exchange α) : List Bool :=
  match e.stage with
  | .connecting => [false]
  | .writing => if e.reused then [true, false] else [false]
  | .reading => if e.reused && !e.link.hasBegun then [false] else []
  | .answered _ | .kept _ => []

/-- The answer the exchange came to. -/
def answer? (e : Exchange α) : Option (ℕ × α) :=
  match e.stage with
  | .answered answer | .kept answer => answer
  | .connecting | .writing | .reading => none

/-- What is on the connection of an exchange, by where it is. -/
def OnItsWay (e : Exchange α) (k : ℕ) : Prop :=
  match e.stage with
  | .connecting => e.reused = false ∧ e.link.IsClean
  | .writing => e.link.IsClean
  | .reading => e.link.asked = [k] ∧ e.link.arrived = [] ∨
      e.link.asked = [] ∧ ∃ answer, e.link.arrived = [(k, answer)]
  | .answered _ | .kept _ => e.link.IsClean

/-- What holds of an exchange in every state. -/
structure IsSound (e : Exchange α) (k : ℕ) : Prop where
  goesTo : e.link.host = e.host ∧ e.link.port = e.port
  onItsWay : e.OnItsWay k
  answer : ∀ answer, e.answer? = some answer → answer.1 = k

section

variable {e : Exchange α} {k : ℕ}

theorem isClean_close (link : Link α) : link.close.IsClean := ⟨rfl, rfl, rfl⟩

theorem isSound_start {link : Link α} {host port : Bytes}
    (hto : link.host = host ∧ link.port = port) (hclean : link.IsClean) :
    (start host port link).IsSound k := by
  refine ⟨hto, ?_, fun answer hanswer => ?_⟩
  · unfold OnItsWay start
    cases hopen : link.isOpen
    · exact ⟨rfl, hclean⟩
    · exact hclean
  · unfold answer? start at hanswer
    cases hopen : link.isOpen <;> simp [hopen] at hanswer

theorem IsSound.connects (h : e.IsSound k) : e.connects.IsSound k := by
  unfold Exchange.connects
  cases hstage : e.stage with
  | connecting =>
    exact ⟨h.goesTo, ⟨rfl, rfl, rfl⟩, fun answer hanswer => by simp [answer?] at hanswer⟩
  | writing => exact h
  | reading => exact h
  | answered answer => exact h
  | kept answer => exact h

theorem IsSound.writes (h : e.IsSound k) : (e.writes k).IsSound k := by
  unfold Exchange.writes
  have hway := h.onItsWay
  unfold OnItsWay at hway
  cases hstage : e.stage with
  | writing =>
    rw [hstage] at hway
    refine ⟨h.goesTo, .inl ⟨?_, hway.arrived⟩, fun answer hanswer => by simp [answer?] at hanswer⟩
    simp [hway.asked]
  | connecting => exact h
  | reading => exact h
  | answered answer => exact h
  | kept answer => exact h

theorem IsSound.fails (h : e.IsSound k) : e.fails.IsSound k := by
  have hretry : (({ e with link := e.link.close, reused := false, stage := .connecting } :
      Exchange α)).IsSound k :=
    ⟨h.goesTo, ⟨rfl, isClean_close _⟩, fun answer hanswer => by simp [answer?] at hanswer⟩
  have hfailed : (({ e with link := e.link.close, stage := .answered none } :
      Exchange α)).IsSound k :=
    ⟨h.goesTo, isClean_close _, fun answer hanswer => by simp [answer?] at hanswer⟩
  unfold Exchange.fails
  cases hstage : e.stage with
  | connecting =>
    simp only
    split_ifs
    · exact hfailed
    · exact hretry
  | writing =>
    simp only
    split_ifs
    · exact hfailed
    · exact hretry
  | reading =>
    simp only
    split_ifs
    · exact hfailed
    · exact hretry
  | answered answer => exact h
  | kept answer => exact h

theorem IsSound.answers (h : e.IsSound k) (answer : α) : (e.answers answer).IsSound k := by
  unfold Exchange.answers
  have hway := h.onItsWay
  unfold OnItsWay at hway
  cases hasked : e.link.asked with
  | nil => exact h
  | cons j asked =>
    cases hstage : e.stage with
    | reading =>
      rw [hstage] at hway
      rcases hway with ⟨hone, harrived⟩ | ⟨hnone, -⟩
      · obtain ⟨rfl, rfl⟩ := List.cons_eq_cons.mp (hasked.symm.trans hone)
        refine ⟨h.goesTo, .inr ⟨rfl, answer, ?_⟩, fun other hother => by simp [answer?] at hother⟩
        simp [harrived]
      · simp [hasked] at hnone
    | connecting =>
      rw [hstage] at hway
      exact absurd (hasked.symm.trans hway.2.asked) (by simp)
    | writing =>
      rw [hstage] at hway
      exact absurd (hasked.symm.trans hway.asked) (by simp)
    | answered other =>
      rw [hstage] at hway
      exact absurd (hasked.symm.trans hway.asked) (by simp)
    | kept other =>
      rw [hstage] at hway
      exact absurd (hasked.symm.trans hway.asked) (by simp)

theorem IsSound.begins (h : e.IsSound k) : e.begins.IsSound k := by
  unfold Exchange.begins
  have hway := h.onItsWay
  unfold OnItsWay at hway
  cases hstage : e.stage with
  | reading =>
    rw [hstage] at hway
    exact ⟨h.goesTo, hway, fun answer hanswer => by simp [answer?] at hanswer⟩
  | connecting => exact h
  | writing => exact h
  | answered answer => exact h
  | kept answer => exact h

/-- What is read is the answer to the request of the exchange itself. -/
theorem IsSound.reads (h : e.IsSound k) (keepAlive : Bool) : (e.reads keepAlive).IsSound k := by
  unfold Exchange.reads
  have hway := h.onItsWay
  unfold OnItsWay at hway
  cases hstage : e.stage with
  | reading =>
    rw [hstage] at hway
    cases harrived : e.link.arrived with
    | nil => exact h
    | cons answer arrived =>
      rcases hway with ⟨-, hnone⟩ | ⟨hasked, other, hone⟩
      · simp [harrived] at hnone
      · obtain ⟨rfl, rfl⟩ := List.cons_eq_cons.mp (harrived.symm.trans hone)
        refine ⟨?_, ?_, fun answer hanswer => ?_⟩
        · cases keepAlive <;> exact h.goesTo
        · cases keepAlive
          · exact isClean_close _
          · exact ⟨hasked, rfl, rfl⟩
        · obtain rfl : (k, other) = answer := by simpa [answer?] using hanswer
          rfl
  | connecting => exact h
  | writing => exact h
  | answered answer => exact h
  | kept answer => exact h

/-! ### What an exchange plans -/

/-- An exchange sends its request once at the most over a connection that is reused, and then once
over one that is not. -/
theorem plan_sublist (e : Exchange α) : e.plan.Sublist [true, false] := by
  unfold plan
  cases e.stage with
  | connecting => simp
  | writing => cases e.reused <;> simp
  | reading => cases e.reused <;> cases e.link.hasBegun <;> simp
  | answered answer => simp
  | kept answer => simp

theorem IsSound.plan_connects (h : e.IsSound k) : e.connects.plan.Sublist e.plan := by
  have hway := h.onItsWay
  unfold OnItsWay at hway
  unfold Exchange.connects
  cases hstage : e.stage with
  | connecting =>
    rw [hstage] at hway
    simp [plan, hstage, hway.1]
  | writing => exact List.Sublist.refl _
  | reading => exact List.Sublist.refl _
  | answered answer => exact List.Sublist.refl _
  | kept answer => exact List.Sublist.refl _

theorem plan_writes (e : Exchange α) (k : ℕ) :
    (e.sends?.toList ++ (e.writes k).plan).Sublist e.plan := by
  unfold Exchange.writes sends?
  cases hstage : e.stage with
  | writing =>
    cases hreused : e.reused with
    | false => simp [plan, hstage, hreused]
    | true => cases hbegun : e.link.hasBegun <;> simp [plan, hstage, hreused, hbegun]
  | connecting => exact List.Sublist.refl _
  | reading => exact List.Sublist.refl _
  | answered answer => exact List.Sublist.refl _
  | kept answer => exact List.Sublist.refl _

theorem IsSound.plan_fails (h : e.IsSound k) : e.fails.plan.Sublist e.plan := by
  have hway := h.onItsWay
  unfold OnItsWay at hway
  unfold Exchange.fails
  cases hstage : e.stage with
  | connecting =>
    rw [hstage] at hway
    simp [plan, hway.1]
  | writing =>
    cases hreused : e.reused <;> cases e.link.hasBegun <;> simp [plan, hstage, hreused]
  | reading =>
    cases hreused : e.reused <;> cases hbegun : e.link.hasBegun <;>
      simp [plan, hstage, hreused, hbegun]
  | answered answer => exact List.Sublist.refl _
  | kept answer => exact List.Sublist.refl _

theorem plan_answers (e : Exchange α) (answer : α) : (e.answers answer).plan = e.plan := by
  unfold Exchange.answers
  cases e.link.asked <;> rfl

theorem plan_begins (e : Exchange α) : e.begins.plan.Sublist e.plan := by
  unfold Exchange.begins
  cases hstage : e.stage with
  | reading => simp [plan]
  | connecting => exact List.Sublist.refl _
  | writing => exact List.Sublist.refl _
  | answered answer => exact List.Sublist.refl _
  | kept answer => exact List.Sublist.refl _

theorem plan_reads (e : Exchange α) (keepAlive : Bool) :
    (e.reads keepAlive).plan.Sublist e.plan := by
  unfold Exchange.reads
  cases hstage : e.stage with
  | reading =>
    cases e.link.arrived with
    | nil => exact List.Sublist.refl _
    | cons answer arrived => simp [plan]
  | connecting => exact List.Sublist.refl _
  | writing => exact List.Sublist.refl _
  | answered answer => exact List.Sublist.refl _
  | kept answer => exact List.Sublist.refl _

end

end Exchange

namespace Pooled

variable (pool : PoolKind)

/-- The idle connections that a request leaves there: those that go where it goes and are not
reusable are dropped. -/
def left (s : Pooled α) (host port : Bytes) : List (Link α) :=
  s.idle.filter fun link => !(link.goesTo host port && !link.isReusable s.clock)

/-- `take`: the connection kept last of those that go there, or a new one. -/
def take (s : Pooled α) (host port : Bytes) : Link α × List (Link α) :=
  let latest := (s.left host port).reverse
  match latest.dropWhile fun link => !link.goesTo host port with
  | [] => ({ host, port }, s.left host port)
  | link :: older =>
    (link, older.reverse ++ (latest.takeWhile fun link => !link.goesTo host port).reverse)

/-- `keep`: the one that has been idle for longest goes where there are enough. -/
def keep (s : Pooled α) (link : Link α) : List (Link α) :=
  if !link.isOpen then s.idle
  else
    let idle := if pool.connectionCache ≤ s.idle.length then s.idle.tail else s.idle
    idle ++ [{ link with idleSince := s.clock }]

def setExchange (s : Pooled α) (k : ℕ) (e : Option (Exchange α)) : Pooled α :=
  { s with exchanges := Function.update s.exchanges k e }

/-- The exchange goes on. -/
def onExchange (s : Pooled α) (k : ℕ) (f : Exchange α → Exchange α) : Pooled α :=
  s.setExchange k ((s.exchanges k).map f)

/-- The exchange begins, unless there is one of its name. -/
def begin (s : Pooled α) (k : ℕ) (host port : Bytes) : Pooled α :=
  if (s.exchanges k).isSome then s
  else
    let taken := s.take host port
    { s.setExchange k (some (.start host port taken.1)) with idle := taken.2 }

/-- The connection of an exchange that is over is handed back. -/
def handBack (s : Pooled α) (k : ℕ) : Pooled α :=
  match s.exchanges k with
  | none => s
  | some e =>
    match e.stage with
    | .answered answer =>
      { s.setExchange k (some { e with stage := .kept answer }) with idle := s.keep pool e.link }
    | .connecting | .writing | .reading | .kept _ => s

def step (s : Pooled α) : PooledEvent α → Pooled α
  | .take k host port => s.begin k host port
  | .connects k => s.onExchange k .connects
  | .writes k => s.onExchange k (.writes · k)
  | .fails k => s.onExchange k .fails
  | .answers k answer => s.onExchange k (.answers · answer)
  | .begins k => s.onExchange k .begins
  | .reads k keepAlive => s.onExchange k (.reads · keepAlive)
  | .keep k => s.handBack pool k
  | .ends index => { s with idle := s.idle.modify index fun link => { link with isEnded := true } }
  | .passes seconds => { s with clock := s.clock + seconds }

/-! ### What the exchanges come to -/

/-- The requests an exchange has sent, by whether its connection was reused. -/
def sends (k : ℕ) (s : Pooled α) : PooledEvent α → List Bool
  | .writes j =>
    if j = k then ((s.exchanges k).bind Exchange.sends?).toList else []
  | .take .. | .connects _ | .fails _ | .answers .. | .begins _ | .reads .. | .keep _ | .ends _
  | .passes _ => []

/-- What an exchange may still send. -/
def plan (k : ℕ) (s : Pooled α) : List Bool := (s.exchanges k).elim [true, false] Exchange.plan

/-- What holds of a pool in every state. -/
structure Sound (s : Pooled α) : Prop where
  exchanges : ∀ k e, s.exchanges k = some e → e.IsSound k
  idle : ∀ link ∈ s.idle, link.isOpen = true ∧ link.IsClean
  length_idle : s.idle.length ≤ pool.connectionCache

section

variable {s : Pooled α}

theorem Sound.onExchange (h : s.Sound pool) (k : ℕ) {f : Exchange α → Exchange α}
    (hf : ∀ e : Exchange α, e.IsSound k → (f e).IsSound k) : (s.onExchange k f).Sound pool := by
  refine ⟨fun j e he => ?_, h.idle, h.length_idle⟩
  by_cases hj : j = k
  · subst hj
    obtain ⟨e', he', rfl⟩ : ∃ e', s.exchanges j = some e' ∧ f e' = e := by
      simpa [Pooled.onExchange, setExchange] using he
    exact hf e' (h.exchanges j e' he')
  · exact h.exchanges j e ((Function.update_of_ne hj ..).symm.trans he)

/-- What a pool gives out was idle there, or is new; the rest stays, but for what is dropped. -/
theorem take_cases (s : Pooled α) (host port : Bytes) :
    ((s.take host port).1.host = host ∧ (s.take host port).1.port = port) ∧
      ((s.take host port).1 ∈ s.left host port ∨ (s.take host port).1 = { host, port }) ∧
      ((s.take host port).2.Sublist (s.left host port)) := by
  unfold take
  dsimp only
  have hsplit := List.takeWhile_append_dropWhile
    (p := fun link : Link α => !link.goesTo host port) (l := (s.left host port).reverse)
  cases hdrop : (s.left host port).reverse.dropWhile fun link => !link.goesTo host port with
  | nil => exact ⟨⟨rfl, rfl⟩, .inr rfl, List.Sublist.refl _⟩
  | cons link older =>
    rw [hdrop] at hsplit
    have hgoes : link.goesTo host port = true := by
      have hfirst := List.head_dropWhile_not (fun link : Link α => !link.goesTo host port)
        (l := (s.left host port).reverse) (by simp [hdrop])
      simpa [hdrop] using hfirst
    have hall : s.left host port = older.reverse ++ [link] ++
        ((s.left host port).reverse.takeWhile fun link => !link.goesTo host port).reverse := by
      have hreverse := congrArg List.reverse hsplit
      simpa using hreverse.symm
    refine ⟨?_, .inl ?_, ?_⟩
    · simpa [Link.goesTo] using hgoes
    · rw [hall]
      simp
    · conv_rhs => rw [hall]
      exact (List.sublist_append_left ..).append (List.Sublist.refl _)

/-- An open connection that is given out is one that can be sent a request. -/
theorem isReusable_take {host port : Bytes} (hopen : (s.take host port).1.isOpen = true) :
    (s.take host port).1.isReusable s.clock = true := by
  obtain ⟨hgoes, htaken, -⟩ := take_cases s host port
  rcases htaken with hleft | hnew
  · have hkept := List.of_mem_filter hleft
    simpa [Link.goesTo, hgoes] using hkept
  · simp [hnew] at hopen

/-- A connection that is taken has nothing on it. -/
theorem Sound.take (h : s.Sound pool) (host port : Bytes) :
    (s.take host port).1.IsClean ∧ ∀ link ∈ (s.take host port).2, link ∈ s.idle := by
  obtain ⟨-, htaken, hrest⟩ := take_cases s host port
  have hleft : ∀ link ∈ s.left host port, link ∈ s.idle := fun link hlink =>
    List.mem_of_mem_filter hlink
  refine ⟨?_, fun link hlink => hleft link (hrest.subset hlink)⟩
  rcases htaken with htaken | htaken
  · exact (h.idle _ (hleft _ htaken)).2
  · rw [htaken]
    exact ⟨rfl, rfl, rfl⟩

theorem Sound.begin (h : s.Sound pool) (k : ℕ) (host port : Bytes) :
    (s.begin k host port).Sound pool := by
  unfold Pooled.begin
  split_ifs
  · exact h
  obtain ⟨hgoes, -, hrest⟩ := take_cases s host port
  obtain ⟨hclean, hidle⟩ := h.take pool host port
  refine ⟨fun j e he => ?_, fun link hlink => h.idle link (hidle link hlink), ?_⟩
  · by_cases hj : j = k
    · subst hj
      obtain rfl : Exchange.start host port (s.take host port).1 = e := by
        simpa [setExchange] using he
      exact Exchange.isSound_start hgoes hclean
    · exact h.exchanges j e ((Function.update_of_ne hj ..).symm.trans he)
  · exact (hrest.length_le.trans (List.length_filter_le ..)).trans h.length_idle

theorem Sound.keep (h : s.Sound pool) {link : Link α} (hclean : link.IsClean) :
    (∀ link' ∈ s.keep pool link, link'.isOpen = true ∧ link'.IsClean) ∧
      (s.keep pool link).length ≤ pool.connectionCache := by
  have hlength := h.length_idle
  unfold Pooled.keep
  by_cases hopen : link.isOpen = true
  · simp only [hopen, Bool.not_true, Bool.false_eq_true, if_false]
    refine ⟨fun link' hlink => ?_, ?_⟩
    · rcases List.mem_append.mp hlink with hlink | hlink
      · refine h.idle link' ?_
        split_ifs at hlink
        · exact List.mem_of_mem_tail hlink
        · exact hlink
      · obtain rfl := List.mem_singleton.mp hlink
        exact ⟨rfl, hclean.asked, hclean.arrived, hclean.hasBegun⟩
    · have hsome : 0 < pool.connectionCache := by cases pool <;> decide
      rw [List.length_append, List.length_singleton]
      split_ifs
      · rw [List.length_tail]
        omega
      · omega
  · simp only [hopen, Bool.not_false, if_true]
    exact ⟨h.idle, hlength⟩

theorem Sound.handBack (h : s.Sound pool) (k : ℕ) : (s.handBack pool k).Sound pool := by
  unfold Pooled.handBack
  cases he : s.exchanges k with
  | none => exact h
  | some e =>
    have hsound := h.exchanges k e he
    have hway := hsound.onItsWay
    unfold Exchange.OnItsWay at hway
    dsimp only
    cases hstage : e.stage with
    | connecting => exact h
    | writing => exact h
    | reading => exact h
    | kept answer => exact h
    | answered answer =>
      rw [hstage] at hway
      obtain ⟨hidle, hlength⟩ := h.keep pool hway
      refine ⟨fun j e' he' => ?_, hidle, hlength⟩
      by_cases hj : j = k
      · subst hj
        obtain rfl : { e with stage := .kept answer } = e' := by simpa [setExchange] using he'
        exact ⟨hsound.goesTo, hway, fun other hother =>
          hsound.answer other (by simpa [Exchange.answer?, hstage] using hother)⟩
      · exact h.exchanges j e' ((Function.update_of_ne hj ..).symm.trans he')

theorem sound_start : ({} : Pooled α).Sound pool where
  exchanges k e he := by simp at he
  idle link hlink := by simp at hlink
  length_idle := Nat.zero_le _

theorem Sound.step (h : s.Sound pool) (event : PooledEvent α) : (s.step pool event).Sound pool := by
  cases event with
  | take k host port => exact h.begin pool k host port
  | connects k => exact h.onExchange pool k fun e he => he.connects
  | writes k => exact h.onExchange pool k fun e he => he.writes
  | fails k => exact h.onExchange pool k fun e he => he.fails
  | answers k answer => exact h.onExchange pool k fun e he => he.answers answer
  | begins k => exact h.onExchange pool k fun e he => he.begins
  | reads k keepAlive => exact h.onExchange pool k fun e he => he.reads keepAlive
  | keep k => exact h.handBack pool k
  | passes seconds => exact ⟨h.exchanges, h.idle, h.length_idle⟩
  | ends index =>
    refine ⟨h.exchanges, fun link hlink => ?_, ?_⟩ <;> unfold Pooled.step at *
    · obtain ⟨i, hi, rfl⟩ := List.mem_iff_getElem.mp hlink
      have hi' : i < s.idle.length := by simpa using hi
      have hopen := h.idle _ (List.getElem_mem hi')
      simp only [List.getElem_modify]
      split_ifs
      · exact ⟨hopen.1, hopen.2.asked, hopen.2.arrived, hopen.2.hasBegun⟩
      · exact hopen
    · simpa using h.length_idle

/-- What a step of an exchange sends is what that plans next. -/
theorem plan_onExchange (k j : ℕ) {f : Exchange α → Exchange α} {sent : List Bool}
    (hself : j = k → ∀ e, s.exchanges k = some e → (sent ++ (f e).plan).Sublist e.plan)
    (hother : j ≠ k → sent = []) (hnone : j = k → s.exchanges k = none → sent = []) :
    (sent ++ plan k (s.onExchange j f)).Sublist (plan k s) := by
  unfold plan Pooled.onExchange setExchange
  by_cases hj : j = k
  · subst hj
    simp only [Function.update_self]
    cases he : s.exchanges j with
    | none => simp [hnone rfl he]
    | some e => exact hself rfl e he
  · have hsame : Function.update s.exchanges j ((s.exchanges j).map f) k = s.exchanges k :=
      Function.update_of_ne (Ne.symm hj) ..
    simp only [hother hj, List.nil_append, hsame]
    exact List.Sublist.refl _

/-- What is sent is what was planned to be sent next. -/
theorem Sound.plan_step (h : s.Sound pool) (k : ℕ) (event : PooledEvent α) :
    (sends k s event ++ plan k (s.step pool event)).Sublist (plan k s) := by
  cases event with
  | take j host port =>
    show (plan k (s.begin j host port)).Sublist (plan k s)
    unfold Pooled.begin
    split_ifs with hsome
    · exact List.Sublist.refl _
    · unfold plan
      by_cases hj : k = j
      · subst hj
        have hnone : s.exchanges k = none := by simpa using hsome
        simp only [setExchange, Function.update_self, hnone, Option.elim_some, Option.elim_none]
        exact Exchange.plan_sublist _
      · simp only [setExchange, Function.update_of_ne hj]
        exact List.Sublist.refl _
  | connects j =>
    exact plan_onExchange k j (fun _ e he => (h.exchanges k e he).plan_connects) (fun _ => rfl)
      fun _ _ => rfl
  | writes j =>
    refine plan_onExchange k j (fun hj e he => ?_) (fun hj => if_neg hj) fun hj hnone => ?_
    · simp only [sends, hj, if_true, he, Option.bind_some]
      exact Exchange.plan_writes e k
    · simp [sends, hnone]
  | fails j =>
    exact plan_onExchange k j (fun _ e he => (h.exchanges k e he).plan_fails) (fun _ => rfl)
      fun _ _ => rfl
  | answers j answer =>
    refine plan_onExchange k j (fun _ e _ => ?_) (fun _ => rfl) fun _ _ => rfl
    rw [Exchange.plan_answers]
    exact List.Sublist.refl _
  | begins j =>
    exact plan_onExchange k j (fun _ e _ => Exchange.plan_begins e) (fun _ => rfl) fun _ _ => rfl
  | reads j keepAlive =>
    exact plan_onExchange k j (fun _ e _ => Exchange.plan_reads e keepAlive) (fun _ => rfl)
      fun _ _ => rfl
  | keep j =>
    show (plan k (s.handBack pool j)).Sublist (plan k s)
    unfold Pooled.handBack
    cases he : s.exchanges j with
    | none => exact List.Sublist.refl _
    | some e =>
      dsimp only
      cases hstage : e.stage with
      | connecting => exact List.Sublist.refl _
      | writing => exact List.Sublist.refl _
      | reading => exact List.Sublist.refl _
      | kept answer => exact List.Sublist.refl _
      | answered answer =>
        unfold plan
        by_cases hj : k = j
        · subst hj
          simp [setExchange, Exchange.plan]
        · simp only [setExchange, Function.update_of_ne hj]
          exact List.Sublist.refl _
  | ends index => exact List.Sublist.refl _
  | passes seconds => exact List.Sublist.refl _

end

end Pooled

section

open Pooled

/-- **An exchange comes to the answer to its own request.** Whatever order the exchanges that share
a pool go on in, wherever they fail and wherever the other ends close their connections: the answer
an exchange comes to is what its own request was answered with, by the node it was to go to. The
request is sent at most once over a connection out of the pool, which was idle for less than a node
keeps one, and then at most once over one of its own, and no more once part of an answer was read.
What is idle in the pool is open with nothing on its way, and no more than the pool is to keep. -/
theorem exchanges_answer (pool : PoolKind) (es : List (PooledEvent α)) :
    let s := run (step pool) {} es
    (∀ k e, s.exchanges k = some e → (e.link.host = e.host ∧ e.link.port = e.port) ∧
      ∀ answer, e.answer? = some answer → answer.1 = k) ∧
    (∀ k, (history (step pool) (sends k) {} es).Sublist [true, false] ∧
      ∀ es', (history (step pool) (sends k) s es').Sublist (plan k s)) ∧
    (∀ host port, (s.take host port).1.isOpen = true →
      (s.take host port).1.isReusable s.clock = true) ∧
    (∀ link ∈ s.idle, link.isOpen = true ∧ link.IsClean) ∧
    s.idle.length ≤ pool.connectionCache := by
  intro s
  have hkeep : ∀ (s : Pooled α) event, s.Sound pool → True → (s.step pool event).Sound pool :=
    fun s event h _ => h.step pool event
  have hplan : ∀ k (s : Pooled α) es, s.Sound pool →
      (history (step pool) (sends k) s es).Sublist (plan k s) := fun k s es h =>
    (throughout_true s es).keeps_to (plan k) hkeep (fun s event h _ => h.plan_step pool k event) h
  have hsound : s.Sound pool := (throughout_true _ es).invariant hkeep (sound_start pool)
  refine ⟨fun k e he => ?_, fun k => ⟨hplan k {} es (sound_start pool), fun es' => ?_⟩,
    fun host port hopen => isReusable_take hopen, hsound.idle, hsound.length_idle⟩
  · have he' := hsound.exchanges k e he
    exact ⟨he'.goesTo, he'.answer⟩
  · exact hplan k s es' hsound

end

end AsyncDatabase
