import AsyncDatabase.Repository.Effect

/-!
# The counts a store hands out

`next_count` takes the next count of a block that was reserved on disk, and reserves a block first
where the one in memory is used up. A store that was opened has none, so what the process before it
left of its block is never handed out: `nextCount_cases` says that a count is above every one that
was handed out before, by this process or by an earlier one.
-/

namespace AsyncDatabase

open Throwing

namespace Store

/-- The count in memory is one of its block, and the block is one that was reserved on disk. -/
structure CountsKept (s : Store) : Prop where
  counts_le : s.counts ≤ s.countsReserved
  reserved_le : s.countsReserved ≤ s.disk.count.getD 0

/-- A count that may have been handed out: one up to the count in memory, and one of any block on
disk where the next count starts another. -/
def HandedOut (s : Store) (count : ℕ) : Prop :=
  count ≤ s.counts ∨ s.counts = s.countsReserved ∧ count ≤ s.disk.count.getD 0

/-- Another block can be reserved before the counts start over. -/
def HasCounts (s : Store) : Prop := s.disk.count.getD 0 + countsPerReservation < 2 ^ 64

instance : DecidablePred HasCounts := fun s =>
  inferInstanceAs (Decidable (s.disk.count.getD 0 + countsPerReservation < 2 ^ 64))

/-- Two stores are at the same count of the same block. -/
structure SameCounts (s t : Store) : Prop where
  counts : s.counts = t.counts
  countsReserved : s.countsReserved = t.countsReserved
  count : s.disk.count = t.disk.count

theorem SameCounts.kept {s t : Store} (h : s.SameCounts t) (ht : t.CountsKept) : s.CountsKept where
  counts_le := by rw [h.counts, h.countsReserved]; exact ht.counts_le
  reserved_le := by rw [h.countsReserved, h.count]; exact ht.reserved_le

theorem SameCounts.handedOut {s t : Store} (h : s.SameCounts t) {count : ℕ}
    (ht : t.HandedOut count) : s.HandedOut count := by
  unfold HandedOut
  rw [h.counts, h.countsReserved, h.count]
  exact ht

/-- Every count that was handed out is below the end of the blocks on disk. -/
theorem HandedOut.le_reserved {s : Store} {count : ℕ} (h : s.HandedOut count) (hs : s.CountsKept) :
    count ≤ s.disk.count.getD 0 := by
  rcases h with hcount | ⟨-, hcount⟩
  · exact hcount.trans (hs.counts_le.trans hs.reserved_le)
  · exact hcount

/-- How a count is taken: it is the next one, or the first of a block whose end is put on disk. -/
theorem nextCount_run (db : Database) (s : Store) :
    (s.counts ≠ s.countsReserved ∧
      nextCount db s = .ok ((s.counts + 1) % 2 ^ 64) { s with counts := (s.counts + 1) % 2 ^ 64 }) ∨
    (s.counts = s.countsReserved ∧ db.putCount = .ok ∧
      nextCount db s = .ok ((s.disk.count.getD 0 + 1) % 2 ^ 64)
        { s with
          disk := { s.disk with
            count := some ((s.disk.count.getD 0 + countsPerReservation) % 2 ^ 64) }
          counts := (s.disk.count.getD 0 + 1) % 2 ^ 64
          countsReserved := (s.disk.count.getD 0 + countsPerReservation) % 2 ^ 64 }) ∨
    (s.counts = s.countsReserved ∧ db.putCount ≠ .ok ∧ ∃ e, nextCount db s = .error e s) := by
  unfold nextCount
  rw [run_bind_get]
  by_cases hused : s.counts = s.countsReserved
  · rw [if_pos hused, run_bind, reserveCounts, run_bind_get]
    dsimp only
    rw [run_bind]
    rcases check_cases db.putCount (Bytes.ascii "Reserving a block of write counts") s with
      ⟨hput, h⟩ | ⟨hput, e, h⟩
    · rw [h]
      exact Or.inr (Or.inl ⟨hused, hput, rfl⟩)
    · rw [h]
      exact Or.inr (Or.inr ⟨hused, hput, e, rfl⟩)
  · rw [if_neg hused]
    exact Or.inl ⟨hused, rfl⟩

/-- **What taking a count does**: nothing where no block could be reserved, and otherwise the count
is one that was never handed out. -/
theorem nextCount_cases (db : Database) {s : Store} (hs : s.CountsKept) (hroom : s.HasCounts) :
    (∃ e, nextCount db s = .error e s) ∨
      ∃ t, nextCount db s = .ok t.counts t ∧ t.SameTables s ∧ t.terms = s.terms ∧
        t.disk.terms = s.disk.terms ∧ t.CountsKept ∧ t.counts < 2 ^ 64 ∧
        ∀ count, s.HandedOut count → count < t.counts := by
  have hle := hs.counts_le
  have hreserved := hs.reserved_le
  have hlt : s.disk.count.getD 0 + countsPerReservation < 2 ^ 64 := hroom
  have hpos : 0 < countsPerReservation := by decide
  rcases nextCount_run db s with ⟨hused, h⟩ | ⟨hused, -, h⟩ | ⟨-, -, herror⟩
  · have hnext : (s.counts + 1) % 2 ^ 64 = s.counts + 1 := Nat.mod_eq_of_lt (by omega)
    rw [hnext] at h
    refine Or.inr ⟨{ s with counts := s.counts + 1 }, h, ⟨rfl, rfl, rfl⟩, rfl, rfl,
      ⟨by dsimp only; omega, hreserved⟩, by dsimp only; omega, fun count hcount => ?_⟩
    rcases hcount with hcount | ⟨hno, -⟩
    · dsimp only
      omega
    · exact absurd hno hused
  · -- neither the end of the block nor its first count starts over
    have hend : (s.disk.count.getD 0 + countsPerReservation) % 2 ^ 64 =
        s.disk.count.getD 0 + countsPerReservation := Nat.mod_eq_of_lt hlt
    have hfirst : (s.disk.count.getD 0 + 1) % 2 ^ 64 = s.disk.count.getD 0 + 1 :=
      Nat.mod_eq_of_lt (by omega)
    rw [hend, hfirst] at h
    refine Or.inr ⟨{ s with
      disk := { s.disk with count := some (s.disk.count.getD 0 + countsPerReservation) }
      counts := s.disk.count.getD 0 + 1
      countsReserved := s.disk.count.getD 0 + countsPerReservation }, h, ⟨rfl, rfl, rfl⟩, rfl, rfl,
      ⟨by dsimp only; omega, le_refl _⟩, by dsimp only; omega, fun count hcount => ?_⟩
    have hbelow := hcount.le_reserved hs
    dsimp only
    omega
  · exact Or.inl herror

end Store

end AsyncDatabase
