import AsyncDatabase.Library.JsonText
import AsyncDatabase.Library.Run
import AsyncDatabase.Repository.Counting

/-!
# Counts through the life of a store

Calls of `next_count` by any number of threads, taken apart into their steps: the mutex, the
comparison, the `Get` and the `Put` of the record `COUNT`, and the updates in memory. A process may
end between any two of them, and the next one opens the store that is left (`Counter.step`).
`counts_rise` says that every count is above every one handed out before, and none above the record;
`run_alone` that a call nothing comes between is `Store.nextCount`.
-/

namespace AsyncDatabase

open Machine Throwing

/-- Where a thread is in `next_count`. All but the first hold the mutex. -/
inductive CountStage where
  | idle
  /-- `if (counts == counts_reserved)`. -/
  | comparing
  /-- The `Get` of `COUNT`. -/
  | reading
  /-- The `Put` of `COUNT`, with what was reserved. -/
  | putting (reserved : ℕ)
  /-- `counts = reserved`. -/
  | starting (reserved : ℕ)
  /-- `counts_reserved = reserved + counts_per_reservation`. -/
  | bounding (reserved : ℕ)
  /-- `return ++counts`. -/
  | counting
  deriving DecidableEq, Repr

/-- A store with the threads that take counts of it. -/
structure Counter where
  store : Store
  /-- The thread that holds `count_mutex`. -/
  holder : Option ℕ := none
  stage : CountStage := .idle
  /-- The counts that were handed out, the last one first. No call reads them. -/
  handed : List ℕ := []
  /-- How many blocks have been reserved. -/
  blocks : ℕ := 0

inductive CountEvent where
  /-- A thread calls `next_count`, and takes the mutex where nobody holds it. -/
  | call (thread : ℕ)
  /-- A thread takes its next step. A `Put` that the database answers for has landed, and one that
  it does not may have; the thread throws then and lets the mutex go. -/
  | go (thread : ℕ) (put : Status) (lands : Bool)
  /-- The process ends, and the next one opens the store. -/
  | stop

namespace Counter

variable (J : JsonCodec) (size : ℕ)

/-- The end of the block that starts at what was reserved. -/
def blockEnd (reserved : ℕ) : ℕ := (reserved + size) % 2 ^ 64

/-- The block that starts at what was reserved, on disk. -/
def reserve (c : Counter) (reserved : ℕ) : Counter :=
  { c with
    store := { c.store with disk := { c.store.disk with count := some (blockEnd size reserved) } }
    blocks := c.blocks + 1 }

/-- One step of the thread that holds the mutex. -/
def advance (c : Counter) (put : Status) (lands : Bool) : Counter :=
  match c.stage with
  | .idle => c
  | .comparing =>
    if c.store.counts = c.store.countsReserved then { c with stage := .reading }
    else { c with stage := .counting }
  | .reading => { c with stage := .putting (c.store.disk.count.getD 0) }
  | .putting reserved =>
    let landed := if put = .ok ∨ lands = true then c.reserve size reserved else c
    if put = .ok then { landed with stage := .starting reserved }
    else { landed with holder := none, stage := .idle }
  | .starting reserved =>
    { c with store := { c.store with counts := reserved }, stage := .bounding reserved }
  | .bounding reserved =>
    { c with store := { c.store with countsReserved := blockEnd size reserved }, stage :=
      .counting }
  | .counting =>
    let count := (c.store.counts + 1) % 2 ^ 64
    { c with
      store := { c.store with counts := count }
      holder := none
      stage := .idle
      handed := count :: c.handed }

def step (c : Counter) : CountEvent → Counter
  | .call thread =>
    if c.holder = none then { c with holder := some thread, stage := .comparing } else c
  | .go thread put lands => if c.holder = some thread then c.advance size put lands else c
  | .stop =>
    { c with
      store := after (Store.openStore J {} c.store.disk)
      holder := none
      stage := .idle }

/-- A store in a directory nothing was written into. -/
def start : Counter where store := after (Store.openStore J {} Disk.fresh)

/-! ### What holds between two steps -/

/-- What is on disk. -/
def reserved (c : Counter) : ℕ := c.store.disk.count.getD 0

/-- What holds at each stage of the thread that has the mutex: where the count in memory stands, and
that no count up to the next one is still to be handed out. -/
def AtStage (c : Counter) : CountStage → Prop
  | .idle | .comparing => c.store.CountsKept ∧ ∀ count ∈ c.handed, c.store.HandedOut count
  | .reading => c.store.CountsKept ∧ c.store.counts = c.store.countsReserved
  | .putting reserved =>
    c.store.CountsKept ∧ c.store.counts = c.store.countsReserved ∧ reserved = c.reserved
  | .starting reserved =>
    c.reserved = reserved + size ∧ ∀ count ∈ c.handed, count ≤ reserved
  | .bounding reserved =>
    c.reserved = reserved + size ∧ c.store.counts = reserved ∧
      ∀ count ∈ c.handed, count ≤ c.store.counts
  | .counting =>
    c.store.counts < c.store.countsReserved ∧ c.store.countsReserved ≤ c.reserved ∧
      ∀ count ∈ c.handed, count ≤ c.store.counts

/-- What holds between two steps while fewer than `2 ^ 64` counts have been reserved. -/
structure Sound (c : Counter) : Prop where
  /-- The record on disk is what has been reserved in all. -/
  reserved_eq : c.reserved = c.blocks * size
  rising : c.handed.Pairwise (· > ·)
  handed_le : ∀ count ∈ c.handed, count ≤ c.reserved
  free : c.holder = none → c.stage = .idle
  stage : c.AtStage size c.stage

/-- Fewer than `2 ^ 64` counts have been reserved. -/
def HasRoom (c : Counter) : Prop := c.blocks * size < 2 ^ 64

instance (size : ℕ) : DecidablePred (HasRoom size) := fun c =>
  inferInstanceAs (Decidable (c.blocks * size < 2 ^ 64))

variable {J size}

theorem blockEnd_of_lt {start : ℕ} (h : start + size < 2 ^ 64) :
    blockEnd size start = start + size := Nat.mod_eq_of_lt h

/-- A block that is reserved: the record is its end. -/
theorem Sound.reserve {c : Counter} (h : c.Sound size) {start : ℕ} (hstart : start = c.reserved)
    (hroom : (c.reserve size start).HasRoom size) :
    (c.reserve size start).reserved = start + size ∧
      (c.reserve size start).reserved = (c.reserve size start).blocks * size := by
  have hblocks : (c.reserve size start).blocks * size =
      start + size := by
    rw [hstart, h.reserved_eq]
    exact Nat.succ_mul _ _
  have hend : (c.reserve size start).reserved = start + size :=
    blockEnd_of_lt (hblocks ▸ hroom)
  exact ⟨hend, hend.trans hblocks.symm⟩

/-- The `Put` of the record: it is raised or stays, and what was handed out is up to the old
one. -/
theorem Sound.puts {c : Counter} (h : c.Sound size) {start : ℕ}
    (hstage : c.AtStage size (.putting start)) (hheld : c.holder ≠ none) {put : Status}
    {lands : Bool} :
    let landed := if put = .ok ∨ lands = true then c.reserve size start else c
    let next := if put = .ok then { landed with stage := .starting start }
      else { landed with holder := none, stage := .idle }
    next.HasRoom size → next.Sound size := by
  intro landed next hroom
  obtain ⟨hkept, hused, hstart⟩ := hstage
  dsimp only [landed, next] at hroom ⊢
  by_cases hland : put = .ok ∨ lands = true
  · rw [if_pos hland] at hroom ⊢
    have hnow : (c.reserve size start).HasRoom size := by
      split_ifs at hroom <;> exact hroom
    -- the block that lands ends where the record then stands
    obtain ⟨hend, hblocks⟩ := h.reserve hstart hnow
    have hhanded : ∀ count ∈ c.handed, count ≤ start := fun count hcount =>
      hstart ▸ h.handed_le count hcount
    have hbelow : ∀ count ∈ c.handed, count ≤ (c.reserve size start).reserved := by
      intro count hcount
      rw [hend]
      exact (hhanded count hcount).trans (Nat.le_add_right _ _)
    split_ifs
    · exact ⟨hblocks, h.rising, hbelow, fun hno => absurd hno hheld, hend, hhanded⟩
    · -- the block is reserved, and no thread has it
      have hreservedLe : c.store.countsReserved ≤ (c.reserve size start).reserved := by
        rw [hend, hstart]
        exact hkept.reserved_le.trans (Nat.le_add_right _ _)
      exact ⟨hblocks, h.rising, hbelow, fun _ => rfl, ⟨hkept.counts_le, hreservedLe⟩,
        fun count hcount => Or.inr ⟨hused, hbelow count hcount⟩⟩
  · -- nothing has landed, and the thread throws
    rw [if_neg hland] at hroom ⊢
    rw [if_neg fun hok => hland (Or.inl hok)]
    exact ⟨h.reserved_eq, h.rising, h.handed_le, fun _ => rfl, hkept, fun count hcount =>
      Or.inr ⟨hused, h.handed_le count hcount⟩⟩

/-- **A step of the thread that has the mutex.** -/
theorem Sound.advance {c : Counter} (h : c.Sound size) (hpos : 0 < size) {put : Status}
    {lands : Bool} (hroom : (c.advance size put lands).HasRoom size) :
    (c.advance size put lands).Sound size := by
  have hstage := h.stage
  -- a thread that is in the middle of a call holds the mutex
  have hheld : c.stage ≠ .idle → c.holder ≠ none := fun hne hnone => hne (h.free hnone)
  unfold Counter.advance at hroom ⊢
  cases hc : c.stage with
  | idle => exact h
  | comparing =>
    rw [hc] at hstage hheld
    obtain ⟨hkept, hhanded⟩ := hstage
    have hfree := hheld (by decide)
    dsimp only
    split_ifs with hused
    · exact ⟨h.reserved_eq, h.rising, h.handed_le, fun hno => absurd hno hfree, hkept, hused⟩
    · have hlt : c.store.counts < c.store.countsReserved := lt_of_le_of_ne hkept.counts_le hused
      refine ⟨h.reserved_eq, h.rising, h.handed_le, fun hno => absurd hno hfree, hlt,
        hkept.reserved_le, fun count hcount => ?_⟩
      exact (hhanded count hcount).resolve_right fun hno => hused hno.1
  | reading =>
    rw [hc] at hstage hheld
    exact ⟨h.reserved_eq, h.rising, h.handed_le, fun hno => absurd hno (hheld (by decide)),
      hstage.1, hstage.2, rfl⟩
  | putting start =>
    rw [hc] at hstage hroom hheld
    exact h.puts hstage (hheld (by simp)) hroom
  | starting start =>
    rw [hc] at hstage hheld
    exact ⟨h.reserved_eq, h.rising, h.handed_le, fun hno => absurd hno (hheld (by simp)),
      hstage.1, rfl, hstage.2⟩
  | bounding start =>
    rw [hc] at hstage hroom hheld
    obtain ⟨hend, hcounts, hhanded⟩ := hstage
    have hblock : blockEnd size start = start + size := by
      have hroom' : c.blocks * size < 2 ^ 64 := hroom
      rw [← h.reserved_eq, hend] at hroom'
      exact blockEnd_of_lt hroom'
    have hreserved : c.store.disk.count.getD 0 = c.blocks * size := h.reserved_eq
    have hbelow : ∀ count ∈ c.handed, count ≤ c.store.disk.count.getD 0 := h.handed_le
    refine ⟨hreserved, h.rising, hbelow, fun hno => absurd hno (hheld (by simp)), ?_, ?_, hhanded⟩
    · change c.store.counts < blockEnd size start
      omega
    · change blockEnd size start ≤ c.store.disk.count.getD 0
      exact (hblock.trans hend.symm).le
  | counting =>
    rw [hc] at hstage hroom
    obtain ⟨hlt, hle, hhanded⟩ := hstage
    have hnext : (c.store.counts + 1) % 2 ^ 64 = c.store.counts + 1 := by
      have hroom' : c.blocks * size < 2 ^ 64 := hroom
      rw [← h.reserved_eq] at hroom'
      exact Nat.mod_eq_of_lt (by omega)
    dsimp only
    rw [hnext]
    refine ⟨h.reserved_eq, ?_, ?_, fun _ => rfl, ⟨hlt, hle⟩, ?_⟩
    · exact List.pairwise_cons.mpr ⟨fun count hcount =>
        Nat.lt_succ_of_le (hhanded count hcount), h.rising⟩
    · exact List.forall_mem_cons.mpr ⟨hlt.trans_le hle, h.handed_le⟩
    · refine List.forall_mem_cons.mpr ⟨Or.inl (le_refl _), fun count hcount => Or.inl ?_⟩
      exact (hhanded count hcount).trans (Nat.le_succ _)

/-- A process that opens the store knows of no count that is left. -/
theorem Sound.opened {c : Counter} (h : c.Sound size) : (c.step J size .stop).Sound size := by
  obtain ⟨families, hrun, -⟩ := Store.openStore_eq J c.store.disk
  have hstore : (c.step J size .stop).store = after (Store.openStore J {} c.store.disk) := rfl
  rw [hrun] at hstore
  have hreserved : (c.step J size .stop).reserved = c.reserved := by
    rw [reserved, hstore]
    rfl
  refine ⟨hreserved.trans h.reserved_eq, h.rising, ?_, fun _ => rfl, ?_⟩
  · rw [hreserved]
    exact h.handed_le
  · change (c.step J size .stop).store.CountsKept ∧
      ∀ count ∈ c.handed, (c.step J size .stop).store.HandedOut count
    rw [hstore]
    exact ⟨⟨le_refl _, Nat.zero_le _⟩, fun count hcount => Or.inr ⟨rfl, h.handed_le count hcount⟩⟩

theorem blocks_advance (c : Counter) (put : Status) (lands : Bool) :
    c.blocks ≤ (c.advance size put lands).blocks := by
  have hreserve : ∀ start, c.blocks ≤ (c.reserve size start).blocks := fun _ => Nat.le_succ _
  unfold advance
  cases c.stage with
  | comparing =>
    dsimp only
    split_ifs <;> exact le_refl _
  | putting start =>
    dsimp only
    split_ifs <;> first | exact hreserve start | exact le_refl _
  | _ => exact le_refl _

theorem blocks_step (c : Counter) (e : CountEvent) : c.blocks ≤ (c.step J size e).blocks := by
  cases e with
  | call thread =>
    unfold step
    split_ifs <;> exact le_refl _
  | go thread put lands =>
    unfold step
    dsimp only
    split_ifs
    · exact blocks_advance c put lands
    · exact le_refl _
  | stop => exact le_refl _

/-- **A step of any thread, or the end of the process.** -/
theorem Sound.step {c : Counter} (h : c.Sound size) (hpos : 0 < size) (e : CountEvent)
    (hroom : (c.step J size e).HasRoom size) : (c.step J size e).Sound size := by
  cases e with
  | call thread =>
    unfold Counter.step
    dsimp only
    split_ifs with hfree
    · have hstage := h.stage
      rw [h.free hfree] at hstage
      exact ⟨h.reserved_eq, h.rising, h.handed_le, fun hno => absurd hno (by simp), hstage⟩
    · exact h
  | go thread put lands =>
    unfold Counter.step at hroom ⊢
    dsimp only at hroom ⊢
    split_ifs at hroom ⊢
    · exact h.advance hpos hroom
    · exact h
  | stop => exact h.opened

theorem sound_start : (start J).Sound size := by
  obtain ⟨families, hrun, -⟩ := Store.openStore_eq J Disk.fresh
  have hstore : (start J).store = after (Store.openStore J {} Disk.fresh) := rfl
  rw [hrun] at hstore
  have hnone : ∀ count ∈ (start J).handed, False := fun count hcount => by cases hcount
  refine ⟨?_, List.Pairwise.nil, fun count hcount => (hnone count hcount).elim, fun _ => rfl, ?_,
    fun count hcount => (hnone count hcount).elim⟩
  · rw [reserved, hstore]
    exact (Nat.zero_mul _).symm
  · rw [hstore]
    exact ⟨le_refl _, Nat.zero_le _⟩

/-- A run that has room at its end has had room all along. -/
theorem sound_run (hpos : 0 < size) (es : List CountEvent) :
    (run (step J size) (start J) es).HasRoom size →
    (run (step J size) (start J) es).Sound size := by
  refine Throughout.invariant (C := fun _ _ => True)
    (I := fun c : Counter => c.HasRoom size → c.Sound size) (fun c e h _ hroom => ?_)
    (fun _ => sound_start) (throughout_true _ es)
  have hbefore : c.HasRoom size := lt_of_le_of_lt (Nat.mul_le_mul_right _ (blocks_step c e)) hroom
  exact (h hbefore).step hpos e hroom

theorem step_go {c : Counter} {thread : ℕ} (h : c.holder = some thread) (put : Status)
    (lands : Bool) : c.step J size (.go thread put lands) = c.advance size put lands := if_pos h

/-- A thread that is in no call does nothing. -/
theorem run_go_free {c : Counter} (h : c.holder = none) (n thread : ℕ)
    (put : Status) (lands : Bool) :
    run (step J size) c (List.replicate n (.go thread put lands)) = c := by
  induction n with
  | zero => rfl
  | succ n ih =>
    have hstay : c.step J size (.go thread put lands) = c := if_neg (by simp [h])
    rw [List.replicate_succ, run_cons, hstay, ih]

theorem run_go_succ {c : Counter} {thread : ℕ} (h : c.holder = some thread) (n : ℕ) (put : Status)
    (lands : Bool) : run (step J size) c (List.replicate (n + 1) (.go thread put lands)) =
      run (step J size) (c.advance size put lands) (List.replicate n (.go thread put lands)) := by
  rw [List.replicate_succ, run_cons, step_go h]

/-- **A call of a thread that no other comes between is `Store.nextCount`.** -/
theorem run_alone {c : Counter} (hfree : c.holder = none) (hidle : c.stage = .idle) (thread : ℕ)
    (db : Database) :
    run (step J Store.countsPerReservation) c
        (.call thread :: List.replicate 6 (.go thread db.putCount false)) =
      match Store.nextCount db c.store with
      | .ok count s =>
        { c with
          store := s
          handed := count :: c.handed
          blocks := if c.store.counts = c.store.countsReserved then c.blocks + 1 else c.blocks }
      | .error _ s => { c with store := s } := by
  obtain ⟨store, holder, stage, handed, blocks⟩ := c
  cases hfree
  cases hidle
  -- where the thread stands once it has the mutex, and once it has let it go
  let inside (store : Store) (stage : CountStage) (blocks : ℕ) : Counter :=
    { store, holder := some thread, stage, handed, blocks }
  have hcall : (Counter.mk store none .idle handed blocks).step J Store.countsPerReservation
      (.call thread) = inside store .comparing blocks := by
    rw [step, if_pos (Eq.refl none)]
  rw [run_cons, hcall, run_go_succ rfl]
  rcases Store.nextCount_run db store with
    ⟨hused, hnext⟩ | ⟨hused, hput, hnext⟩ | ⟨hused, hput, e, hnext⟩
  · have hcompare : (inside store .comparing blocks).advance Store.countsPerReservation db.putCount
        false = inside store .counting blocks := if_neg hused
    have hcount : (inside store .counting blocks).advance Store.countsPerReservation db.putCount
        false = Counter.mk { store with counts := (store.counts + 1) % 2 ^ 64 } none .idle
          ((store.counts + 1) % 2 ^ 64 :: handed) blocks := rfl
    rw [hcompare, run_go_succ rfl, hcount, run_go_free rfl, hnext]
    dsimp only
    rw [if_neg hused]
  all_goals
    have hcompare : (inside store .comparing blocks).advance Store.countsPerReservation db.putCount
        false = inside store .reading blocks := if_pos hused
    have hread : (inside store .reading blocks).advance
        Store.countsPerReservation db.putCount false =
          inside store (.putting (store.disk.count.getD 0)) blocks := rfl
    rw [hcompare, run_go_succ rfl, hread, run_go_succ rfl]
  · have hwrite : (inside store (.putting (store.disk.count.getD 0)) blocks).advance
        Store.countsPerReservation db.putCount false =
          { (inside store .idle blocks).reserve Store.countsPerReservation
              (store.disk.count.getD 0) with
            stage := .starting (store.disk.count.getD 0) } := by
      unfold advance
      dsimp only [inside]
      rw [if_pos hput, if_pos (Or.inl hput)]
      rfl
    rw [hnext, hwrite, run_go_succ rfl, run_go_succ rfl, run_go_succ rfl]
    dsimp only
    rw [if_pos hused]
    rfl
  · -- the thread throws, and has let the mutex go
    have hfail : (inside store (.putting (store.disk.count.getD 0)) blocks).advance
        Store.countsPerReservation db.putCount false =
          Counter.mk store none .idle handed blocks := by
      unfold advance
      dsimp only [inside]
      rw [if_neg hput, if_neg (by simp [hput])]
    rw [hnext, hfail, run_go_free rfl]

end Counter

/-- The counts of the store as the source takes them, in blocks of `counts_per_reservation`. -/
def runCounts (J : JsonCodec) (es : List CountEvent) : Counter :=
  run (Counter.step J Store.countsPerReservation) (Counter.start J) es

/-- **Counts rise for the life of a store.** After any steps of any threads, in any number of
processes, each count that was handed out is above every one before it, and the record on disk is
below none, as long as fewer than `2 ^ 64` have been reserved. -/
theorem counts_rise (J : JsonCodec) (es : List CountEvent)
    (hroom : (runCounts J es).HasRoom Store.countsPerReservation) :
    (runCounts J es).handed.Pairwise (· > ·) ∧
      ∀ count ∈ (runCounts J es).handed, count ≤ (runCounts J es).store.disk.count.getD 0 := by
  have hsound := Counter.sound_run (by decide) es hroom
  exact ⟨hsound.rising, hsound.handed_le⟩

/-- A thread takes a count and the process ends; a thread of the next one takes another. -/
def countReopened : List CountEvent :=
  .call 0 :: List.replicate 6 (.go 0 .ok true) ++ .stop :: .call 7 ::
    List.replicate 6 (.go 7 .ok true)

theorem counts_rise_reopened :
    ((runCounts JsonText.codec countReopened).handed.Pairwise (· > ·) ∧
      ∀ count ∈ (runCounts JsonText.codec countReopened).handed,
        count ≤ (runCounts JsonText.codec countReopened).store.disk.count.getD 0) ∧
      (runCounts JsonText.codec countReopened).handed = [Store.countsPerReservation + 1, 1] :=
  ⟨counts_rise JsonText.codec countReopened (by decide +kernel), by decide +kernel⟩

end AsyncDatabase
