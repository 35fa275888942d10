import AsyncDatabase.Library.Run
import AsyncDatabase.Membership

/-!
# The loop that watches the membership

A node fills its store once as it starts (`server::serve`), and from then on a loop reads the
membership on a tick and runs passes (`server::reconcile`), while the membership is replaced under
both of them. `watched_by_readings` says for which replacements and readings no partition is held
and not vouched for with no pass to come.
-/

namespace AsyncDatabase

open Bytes (ascii)
open Machine

/-- `same_membership`: the same nodes in the same zones, in the same order. -/
def sameMembership (before after : List Member) : Bool :=
  before.length = after.length ∧
    (before.zip after).all fun listed => listed.1.node = listed.2.node ∧
      listed.1.zone = listed.2.zone

theorem sameMembership_iff {before after : List Member} :
    sameMembership before after = true ↔ before = after := by
  induction before generalizing after with
  | nil => cases after <;> simp [sameMembership]
  | cons listed before ih =>
    cases after with
    | nil => simp [sameMembership]
    | cons other after =>
      obtain ⟨node, zone⟩ := listed
      obtain ⟨node', zone'⟩ := other
      rw [List.cons.injEq, ← ih]
      simp only [sameMembership, List.length_cons, List.zip_cons_cons,
        List.all_cons, Bool.and_eq_true,
        decide_eq_true_iff, Nat.add_right_cancel_iff, Member.mk.injEq]
      tauto

/-- `server::reconcile_attempts`. -/
def reconcileAttempts : ℕ := 12

/-- How far the node has come: it has read a membership and no generation yet, it fills its store,
it has filled it and the loop has not started, the loop waits for its tick, a tick has decided to
run a pass, and a pass runs. -/
inductive Phase where
  | discovering
  | rebuilding (since : ℕ)
  | joining (behind : Bool)
  | waiting
  | deciding
  | passing (since : ℕ)
  deriving DecidableEq, Repr

namespace Phase

/-- The loop has started. -/
def isLooping : Phase → Bool
  | .waiting | .deciding | .passing _ => true
  | _ => false

/-- The attempt that a pass under way is taking. -/
def spare : Phase → ℕ
  | .deciding | .passing _ => 1
  | _ => 0

end Phase

/-- The membership, and what `server::reconcile` keeps between two ticks. -/
structure Watch where
  membership : Membership := {}
  registrations : ℕ := 0
  phase : Phase := .discovering
  seen : List Member := []
  registered : ℕ := 0
  attempts : ℕ := 0
  /-- The generation under which the last pass that ended was begun, or the rebuild where it was
  whole. The loop does not read it. -/
  last : Option ℕ := none
  /-- The generation at the last reading, where that saw nothing new: before the first tick that of
  the rebuild, and none where the last reading gave attempts. The loop does not read it. -/
  quiet : Option ℕ := none
  /-- The passes so far: the generation each was begun under, and whether it said that it moved
  something. The loop does not read them. -/
  passes : List (ℕ × Bool) := []

inductive WatchEvent where
  | replace (members : List Member)
  /-- The lease ran out and the node registered again. -/
  | register
  /-- `serve` reads the generation and rebuilds. -/
  | rebuild
  /-- The rebuild ends: the store is whole or not, and it was one the node came back to or not. -/
  | rebuilt (whole returning : Bool)
  /-- The loop takes its first reading. -/
  | start
  | tick
  /-- A pass reads the generation. -/
  | begin
  | finish (filled : PartitionSet) (settled moved : Bool)
  | threw

/-- What a pass does. Everything else comes from outside the loop, or is a reading of it. -/
def WatchEvent.isPass : WatchEvent → Bool
  | .begin | .finish _ _ _ | .threw => true
  | .replace _ | .register | .rebuild | .rebuilt _ _ | .start | .tick => false

/-- A run as the passes leave it out. -/
def outside (es : List WatchEvent) : List WatchEvent := es.filter fun e => !e.isPass

@[simp] theorem outside_append (a b : List WatchEvent) :
    outside (a ++ b) = outside a ++ outside b :=
  List.filter_append _ _

namespace Watch

variable (self : Bytes)

/-- A reading differs from the one before it. -/
def Differs (w : Watch) : Prop :=
  sameMembership w.seen w.membership.members = false ∨ w.registrations ≠ w.registered

instance (w : Watch) : Decidable w.Differs := inferInstanceAs (Decidable (_ ∨ _))

/-- The loop takes a reading that gives it attempts. -/
def noticed (w : Watch) : Watch :=
  { w with
    seen := w.membership.members
    registered := w.registrations
    attempts := reconcileAttempts
    quiet := none }

/-- A pass has ended that was begun under a generation. -/
def ended (w : Watch) (since : ℕ) (moved : Bool) : Watch :=
  { w with phase := .waiting, passes := (since, moved) :: w.passes }

def step (w : Watch) : WatchEvent → Watch
  | .replace members => { w with membership := w.membership.replaceMembers self members }
  | .register => { w with registrations := w.registrations + 1 }
  | .rebuild =>
    match w.phase with
    | .discovering => { w with phase := .rebuilding w.membership.generation }
    | _ => w
  | .rebuilt whole returning =>
    match w.phase with
    | .rebuilding since =>
      if whole then
        { w with
          membership := w.membership.vouch Finset.univ since
          phase := .joining returning
          last := some since
          quiet := some since }
      else { w with phase := .joining true }
    | _ => w
  | .start =>
    match w.phase with
    | .joining behind =>
      if behind then { w.noticed with phase := .waiting }
      else
        { w with
          phase := .waiting
          seen := w.membership.members
          registered := w.registrations
          attempts := 0 }
    | _ => w
  | .tick =>
    match w.phase with
    | .waiting =>
      if w.Differs then w.noticed
      else if 0 < w.attempts then
        { w with
          phase := .deciding
          attempts := w.attempts - 1
          quiet := some w.membership.generation }
      else { w with quiet := some w.membership.generation }
    | _ => w
  | .begin =>
    match w.phase with
    | .deciding => { w with phase := .passing w.membership.generation }
    | _ => w
  | .finish filled settled moved =>
    match w.phase with
    | .passing since =>
      { w.ended since moved with
        membership := w.membership.vouch filled since
        last := some since
        attempts := if settled then 0 else if moved then reconcileAttempts else w.attempts }
    | _ => w
  | .threw =>
    match w.phase with
    | .passing since => w.ended since false
    | _ => w

/-- The node gained the partition after the last pass that could have vouched for it was begun. -/
def GainedSince (w : Watch) (partition : Partition) : Prop :=
  ∀ since ∈ w.last, since < w.membership.heldSince partition

/-- How many passes have been begun since the node gained a partition and moved nothing. -/
def idle (w : Watch) (partition : Partition) : ℕ :=
  w.passes.countP fun pass => w.membership.heldSince partition ≤ pass.1 ∧ pass.2 = false

/-- **Where a tick finds a partition that is not vouched for, there is a pass to come**: there are
attempts left or the tick gives some, unless as many passes have moved nothing. -/
def Watched (w : Watch) : Prop :=
  w.phase = .waiting → ∀ partition ∈ w.membership.holding, partition ∉ w.membership.filled →
    w.GainedSince partition → 0 < w.attempts ∨ w.Differs ∨ reconcileAttempts ≤ w.idle partition

/-- A tick reads over nothing that was gained: where it sees nothing new and the reading before it
saw nothing new, each partition that is held was held at the reading before it. -/
def ReadsOverNothing (w : Watch) : Prop :=
  w.phase = .waiting → ¬w.Differs → ∀ before ∈ w.quiet, ∀ partition ∈ w.membership.holding,
    w.membership.heldSince partition ≤ before

/-! ### What is known between two events -/

/-- What a node that has come this far has read. -/
def HasRead (w : Watch) : Prop :=
  match w.phase with
  | .discovering => w.last = none ∧ w.quiet = none ∧ w.passes = []
  | .rebuilding since =>
    w.last = none ∧ w.quiet = none ∧ w.passes = [] ∧ since ≤ w.membership.generation
  | .joining behind => w.passes = [] ∧ (behind = false → w.quiet = w.last ∧ w.last ≠ none)
  | .waiting => w.quiet = none → w.attempts = reconcileAttempts
  | .deciding => w.quiet ≠ none
  | .passing since => since ≤ w.membership.generation ∧ (∃ before ∈ w.quiet, before ≤ since) ∧
      ∀ before ∈ w.last, before ≤ since

/-- What is known of a node and its loop between two events. -/
structure Known (w : Watch) : Prop where
  last_le : ∀ since ∈ w.last, since ≤ w.membership.generation
  quiet_le : ∀ before ∈ w.quiet, before ≤ w.membership.generation
  passes_le : ∀ pass ∈ w.passes, pass.1 ≤ w.membership.generation
  read : w.HasRead
  filled : ∀ partition ∈ w.membership.filled,
    partition ∈ w.membership.holding ∧ ¬w.GainedSince partition

/-- What the loop has to do is not lost: a gain that no reading has come over has all the attempts
that a reading gives, less those that were spent on it. -/
def Attended (w : Watch) : Prop :=
  w.phase.isLooping = true → ∀ partition ∈ w.membership.holding, w.GainedSince partition →
    (∀ before ∈ w.quiet, w.membership.heldSince partition ≤ before) →
    reconcileAttempts ≤ w.attempts + w.phase.spare + w.idle partition

variable {self} {w : Watch}

/-- A later generation takes nothing from what was read before it. -/
theorem HasRead.mono {m : Membership} (h : w.HasRead)
    (hle : w.membership.generation ≤ m.generation) : { w with membership := m }.HasRead := by
  unfold HasRead at h ⊢
  dsimp only
  cases hphase : w.phase with
  | discovering => rwa [hphase] at h
  | rebuilding since =>
    rw [hphase] at h
    exact ⟨h.1, h.2.1, h.2.2.1, h.2.2.2.trans hle⟩
  | joining behind => rwa [hphase] at h
  | waiting => rwa [hphase] at h
  | deciding => rwa [hphase] at h
  | passing since =>
    rw [hphase] at h
    exact ⟨h.1.trans hle, h.2⟩

theorem heldSince_of_gained {m : Membership} {members : List Member} {partition : Partition}
    (h : partition ∈ holdingsOf self members) (hno : partition ∉ m.holding) :
    (m.replaceMembers self members).heldSince partition = m.generation + 1 :=
  if_pos ⟨h, hno⟩

theorem heldSince_replaceMembers {m : Membership} {members : List Member} {partition : Partition}
    (h : partition ∈ (m.replaceMembers self members).holding) :
    (partition ∈ m.holding ∧
        (m.replaceMembers self members).heldSince partition = m.heldSince partition) ∨
      (m.replaceMembers self members).heldSince partition = m.generation + 1 := by
  by_cases hheld : partition ∈ m.holding
  · exact Or.inl ⟨hheld, if_neg fun hboth => hboth.2 hheld⟩
  · exact Or.inr (heldSince_of_gained h hheld)

/-- A replacement changes nothing for what has been held all along. -/
theorem Known.replace (h : w.Known) (members : List Member) :
    (w.step self (.replace members)).Known where
  last_le since hsince := (h.last_le since hsince).trans (Nat.le_succ _)
  quiet_le before hbefore := (h.quiet_le before hbefore).trans (Nat.le_succ _)
  passes_le pass hpass := (h.passes_le pass hpass).trans (Nat.le_succ _)
  read := h.read.mono (Nat.le_succ _)
  filled partition hmem := by
    obtain ⟨hfilled, howned⟩ := Finset.mem_inter.mp hmem
    obtain ⟨hheld, hgained⟩ := h.filled partition hfilled
    have hsame : (w.membership.replaceMembers self members).heldSince partition =
        w.membership.heldSince partition := if_neg fun hboth => hboth.2 hheld
    refine ⟨howned, fun hlater => hgained fun since hsince => ?_⟩
    have hlate := hlater since hsince
    change since < (w.membership.replaceMembers self members).heldSince partition at hlate
    rwa [hsame] at hlate

/-- A call of `vouch` for a generation that is no older than the one before it. -/
theorem gainedSince_vouch {filled : PartitionSet} {since : ℕ}
    (hlast : ∀ before ∈ w.last, before ≤ since) (h : w.Known) {partition : Partition}
    (hmem : partition ∈ (w.membership.vouch filled since).filled) :
    partition ∈ w.membership.holding ∧ w.membership.heldSince partition ≤ since := by
  rcases Finset.mem_union.mp hmem with hbefore | hnew
  · obtain ⟨hheld, hgained⟩ := h.filled partition hbefore
    unfold GainedSince at hgained
    push Not at hgained
    obtain ⟨before, hbefore, hle⟩ := hgained
    exact ⟨hheld, hle.trans (hlast before hbefore)⟩
  · exact (Finset.mem_filter.mp hnew).2

/-- The rebuild of the start vouches for what was held as it was begun. -/
theorem Known.rebuilt (h : w.Known) (whole returning : Bool) :
    (w.step self (.rebuilt whole returning)).Known := by
  unfold Watch.step
  dsimp only
  split
  · next since hphase =>
    have hread := h.read
    rw [HasRead, hphase] at hread
    obtain ⟨hlast, hquiet, hpasses, hsince⟩ := hread
    have hreading : ∀ before ∈ some since, before ≤ w.membership.generation := by
      rintro before hbefore
      obtain rfl := Option.mem_some_iff.mp hbefore
      exact hsince
    split_ifs with hwhole
    · refine ⟨hreading, hreading, h.passes_le, ⟨hpasses, fun _ => ⟨rfl, Option.some_ne_none _⟩⟩, ?_⟩
      intro partition hmem
      obtain ⟨hheld, hle⟩ := gainedSince_vouch (by simp [hlast]) h hmem
      exact ⟨hheld, fun hgained => absurd (hgained since rfl) (not_lt.mpr hle)⟩
    · exact ⟨h.last_le, h.quiet_le, h.passes_le, ⟨hpasses, fun hno => by cases hno⟩, h.filled⟩
  · exact h

theorem Known.starts (h : w.Known) : (w.step self .start).Known := by
  unfold Watch.step
  dsimp only
  split
  · next behind hphase =>
    have hread := h.read
    rw [HasRead, hphase] at hread
    obtain ⟨hpasses, hquiet⟩ := hread
    split_ifs with hbehind
    · exact ⟨h.last_le, fun _ hno => (by cases hno), h.passes_le, fun _ => rfl, h.filled⟩
    · refine ⟨h.last_le, h.quiet_le, h.passes_le, fun hnone => ?_, h.filled⟩
      obtain ⟨hsame, hsome⟩ := hquiet (by simpa using hbehind)
      exact absurd (hsame ▸ hnone) hsome
  · exact h

theorem Known.ticks (h : w.Known) : (w.step self .tick).Known := by
  have hreading : ∀ before ∈ some w.membership.generation, before ≤ w.membership.generation :=
    fun before hbefore => (Option.mem_some_iff.mp hbefore).ge
  unfold Watch.step
  dsimp only
  split
  · next hphase =>
    split_ifs with hdiffers hattempts
    · refine ⟨h.last_le, fun _ hno => (by cases hno), h.passes_le, ?_, h.filled⟩
      unfold HasRead noticed
      dsimp only
      rw [hphase]
      exact fun _ => rfl
    · exact ⟨h.last_le, hreading, h.passes_le, Option.some_ne_none _, h.filled⟩
    · refine ⟨h.last_le, hreading, h.passes_le, ?_, h.filled⟩
      unfold HasRead
      dsimp only
      rw [hphase]
      exact fun hno => absurd hno (Option.some_ne_none _)
  · exact h

/-- A pass is begun under a generation that the reading before it is no later than. -/
theorem Known.begins (h : w.Known) : (w.step self .begin).Known := by
  unfold Watch.step
  dsimp only
  split
  · next hphase =>
    have hread := h.read
    rw [HasRead, hphase] at hread
    obtain ⟨before, hbefore⟩ := Option.ne_none_iff_exists'.mp hread
    exact ⟨h.last_le, h.quiet_le, h.passes_le,
      ⟨le_rfl, ⟨before, hbefore, h.quiet_le before hbefore⟩, h.last_le⟩, h.filled⟩
  · exact h

theorem passes_le_ended (h : w.Known) {since : ℕ} (hsince : since ≤ w.membership.generation)
    (moved : Bool) : ∀ pass ∈ (w.ended since moved).passes, pass.1 ≤ w.membership.generation := by
  intro pass hpass
  rcases List.mem_cons.mp hpass with rfl | hearlier
  · exact hsince
  · exact h.passes_le pass hearlier

/-- A pass vouches for what it filled, of what was held as it was begun. -/
theorem Known.finishes (h : w.Known) (filled : PartitionSet) (settled moved : Bool) :
    (w.step self (.finish filled settled moved)).Known := by
  unfold Watch.step
  dsimp only
  split
  · next since hphase =>
    have hread := h.read
    rw [HasRead, hphase] at hread
    obtain ⟨hsince, ⟨reading, hreading, -⟩, hbefore⟩ := hread
    refine ⟨?_, h.quiet_le, passes_le_ended h hsince moved, fun hnone => ?_,
      fun partition hmem => ?_⟩
    · rintro before hlast
      obtain rfl := Option.mem_some_iff.mp hlast
      exact hsince
    · change w.quiet = none at hnone
      rw [hnone] at hreading
      cases hreading
    · obtain ⟨hheld, hle⟩ := gainedSince_vouch hbefore h hmem
      exact ⟨hheld, fun hgained => absurd (hgained since rfl) (not_lt.mpr hle)⟩
  · exact h

theorem Known.throws (h : w.Known) : (w.step self .threw).Known := by
  unfold Watch.step
  dsimp only
  split
  · next since hphase =>
    have hread := h.read
    rw [HasRead, hphase] at hread
    obtain ⟨hsince, ⟨reading, hreading, -⟩, -⟩ := hread
    refine ⟨h.last_le, h.quiet_le, passes_le_ended h hsince false, fun hnone => ?_, h.filled⟩
    change w.quiet = none at hnone
    rw [hnone] at hreading
    cases hreading
  · exact h

theorem Known.step (h : w.Known) (e : WatchEvent) : (w.step self e).Known := by
  cases e with
  | replace members => exact h.replace members
  | register => exact ⟨h.last_le, h.quiet_le, h.passes_le, h.read, h.filled⟩
  | rebuild =>
    unfold Watch.step
    dsimp only
    split
    · next hphase =>
      have hread := h.read
      rw [HasRead, hphase] at hread
      exact ⟨h.last_le, h.quiet_le, h.passes_le, ⟨hread.1, hread.2.1, hread.2.2, le_rfl⟩, h.filled⟩
    · exact h
  | rebuilt whole returning => exact h.rebuilt whole returning
  | start => exact h.starts
  | tick => exact h.ticks
  | begin => exact h.begins
  | finish filled settled moved => exact h.finishes filled settled moved
  | threw => exact h.throws

theorem known_start : ({} : Watch).Known where
  last_le _ h := by cases h
  quiet_le _ h := by cases h
  passes_le _ h := absurd h List.not_mem_nil
  read := ⟨rfl, rfl, rfl⟩
  filled _ h := absurd h (Finset.notMem_empty _)

theorem known_run (es : List WatchEvent) : (run (Watch.step self) {} es).Known :=
  (throughout_true ({} : Watch) es).invariant (I := Watch.Known) (fun _ e h _ => h.step e)
    known_start

/-! ### Where every gain is seen -/

/-- What a replacement gains is later than the last reading, or finds all the attempts that the
reading gave. -/
theorem Attended.replace (h : w.Attended) (hknown : w.Known) (members : List Member) :
    (w.step self (.replace members)).Attended := by
  intro hloop partition hmem hgained hle
  change w.phase.isLooping = true at hloop
  change ∀ before ∈ w.quiet, (w.membership.replaceMembers self members).heldSince partition ≤ before
    at hle
  rcases heldSince_replaceMembers hmem with ⟨hheld, hsame⟩ | hnew
  · have hbefore : w.GainedSince partition := fun since hsince => by
      have hlate := hgained since hsince
      change since < (w.membership.replaceMembers self members).heldSince partition at hlate
      rwa [hsame] at hlate
    have hidle : (w.step self (.replace members)).idle partition = w.idle partition := by
      change w.passes.countP (fun pass => (w.membership.replaceMembers self members).heldSince
        partition ≤ pass.1 ∧ pass.2 = false) = _
      rw [hsame]
      rfl
    rw [hidle]
    exact h hloop partition hheld hbefore (hsame ▸ hle)
  · -- a gain is later than any reading, so the last one gave attempts, and none is spent
    have hquiet : w.quiet = none := Option.eq_none_iff_forall_not_mem.mpr fun before hbefore => by
      have hearly := hknown.quiet_le before hbefore
      have hlate := hle before hbefore
      omega
    have hread := hknown.read
    have hattempts : w.attempts = reconcileAttempts := by
      unfold HasRead at hread
      cases hphase : w.phase with
      | discovering => rw [hphase] at hloop; cases hloop
      | rebuilding since => rw [hphase] at hloop; cases hloop
      | joining behind => rw [hphase] at hloop; cases hloop
      | waiting => rw [hphase] at hread; exact hread hquiet
      | deciding => rw [hphase] at hread; exact absurd hquiet hread
      | passing since =>
        rw [hphase] at hread
        obtain ⟨-, ⟨before, hbefore, -⟩, -⟩ := hread
        rw [hquiet] at hbefore
        cases hbefore
    change _ ≤ w.attempts + w.phase.spare + _
    omega

/-- The loop starts with a pass to come, unless the rebuild vouched for what it held. -/
theorem Attended.starts (h : w.Attended) (hknown : w.Known) : (w.step self .start).Attended := by
  unfold Watch.step
  dsimp only
  split
  · next behind hphase =>
    have hread := hknown.read
    rw [HasRead, hphase] at hread
    split_ifs with hbehind
    · exact fun _ _ _ _ _ => (Nat.le_add_right _ _).trans (Nat.le_add_right _ _)
    · intro _ partition _ hgained hle
      -- the reading before the loop's first is that of the rebuild
      obtain ⟨hsame, hsome⟩ := hread.2 (by simpa using hbehind)
      obtain ⟨since, hsince⟩ := Option.ne_none_iff_exists'.mp hsome
      have hlate : since < w.membership.heldSince partition := hgained since hsince
      have hearly : w.membership.heldSince partition ≤ since := hle since (hsame.trans hsince)
      omega
  · exact h

/-- A turn of the loop gives every attempt back, or takes one that is counted with the idle
passes. -/
theorem Attended.ticks (h : w.Attended) (hover : w.ReadsOverNothing) :
    (w.step self .tick).Attended := by
  unfold Watch.step
  dsimp only
  split
  · next hphase =>
    have hpending : ¬w.Differs → ∀ partition ∈ w.membership.holding, w.GainedSince partition →
        reconcileAttempts ≤ w.attempts + w.idle partition := by
      intro hdiffers partition hmem hgained
      have hleft := h (by rw [hphase]; rfl) partition hmem hgained fun before hbefore =>
        hover hphase hdiffers before hbefore partition hmem
      rw [hphase] at hleft
      exact hleft
    split_ifs with hdiffers hattempts
    · exact fun _ _ _ _ _ => (Nat.le_add_right _ _).trans (Nat.le_add_right _ _)
    · intro _ partition hmem hgained _
      have hleft := hpending hdiffers partition hmem hgained
      change _ ≤ w.attempts - 1 + 1 + w.idle partition
      omega
    · intro _ partition hmem hgained _
      have hleft := hpending hdiffers partition hmem hgained
      change _ ≤ w.attempts + w.phase.spare + w.idle partition
      omega
  · exact h

/-- What the reading before a pass came over was gained before the pass was begun. -/
theorem Attended.finishes (h : w.Attended) (hknown : w.Known) (filled : PartitionSet)
    (settled moved : Bool) : (w.step self (.finish filled settled moved)).Attended := by
  unfold Watch.step
  dsimp only
  split
  · next since hphase =>
    have hread := hknown.read
    rw [HasRead, hphase] at hread
    obtain ⟨-, ⟨before, hbefore, hreading⟩, -⟩ := hread
    intro _ partition _ hgained hle
    have hlate : since < w.membership.heldSince partition := hgained since rfl
    have hearly : w.membership.heldSince partition ≤ before := hle before hbefore
    omega
  · exact h

/-- A pass that throws is one more idle pass for what was held as it was begun. -/
theorem Attended.throws (h : w.Attended) (hknown : w.Known) : (w.step self .threw).Attended := by
  unfold Watch.step
  dsimp only
  split
  · next since hphase =>
    have hread := hknown.read
    rw [HasRead, hphase] at hread
    obtain ⟨-, ⟨before, hbefore, hreading⟩, -⟩ := hread
    intro _ partition hmem hgained hle
    have hleft := h (by rw [hphase]; rfl) partition hmem hgained hle
    rw [hphase] at hleft
    have hearly : w.membership.heldSince partition ≤ before := hle before hbefore
    have hidle : (w.ended since false).idle partition = w.idle partition + 1 :=
      List.countP_cons_of_pos (by simpa [ended] using hearly.trans hreading)
    change _ ≤ w.attempts + 1 + w.idle partition at hleft
    rw [hidle]
    change _ ≤ w.attempts + 0 + (w.idle partition + 1)
    omega
  · exact h

theorem Attended.step (h : w.Attended) (hknown : w.Known) {e : WatchEvent}
    (hover : e = .tick → w.ReadsOverNothing) : (w.step self e).Attended := by
  cases e with
  | replace members => exact h.replace hknown members
  | register => exact h
  | rebuild =>
    unfold Watch.step
    dsimp only
    split
    · exact fun hno => by cases hno
    · exact h
  | rebuilt whole returning =>
    unfold Watch.step
    dsimp only
    split
    · split_ifs
      · exact fun hno => by cases hno
      · exact fun hno => by cases hno
    · exact h
  | start => exact h.starts hknown
  | tick => exact h.ticks (hover rfl)
  | begin =>
    unfold Watch.step
    dsimp only
    split
    · next hphase =>
      intro _ partition hmem hgained hle
      have hleft := h (by rw [hphase]; rfl) partition hmem hgained hle
      rwa [hphase] at hleft
    · exact h
  | finish filled settled moved => exact h.finishes hknown filled settled moved
  | threw => exact h.throws hknown

/-- What the loop finds at a tick is watched, where the tick reads over nothing. -/
theorem Attended.watched (h : w.Attended) (hover : w.ReadsOverNothing) : w.Watched := by
  intro hphase partition hmem _ hgained
  by_cases hdiffers : w.Differs
  · exact Or.inr (Or.inl hdiffers)
  · have hleft := h (by rw [hphase]; rfl) partition hmem hgained fun before hbefore =>
      hover hphase hdiffers before hbefore partition hmem
    rw [hphase] at hleft
    change _ ≤ w.attempts + 0 + w.idle partition at hleft
    by_cases hattempts : w.attempts = 0
    · exact Or.inr (Or.inr (by omega))
    · exact Or.inl (Nat.pos_of_ne_zero hattempts)

/-! ### Where a gain is read over -/

/-- The same node under another loop: one that has spent its attempts, or is at the pass that spends
them, and has begun none since this generation. -/
structure Spends (w t : Watch) (since : ℕ) : Prop where
  membership : ∃ filled, t.membership = { w.membership with filled }
  registrations : t.registrations = w.registrations
  seen : t.seen = w.seen
  registered : t.registered = w.registered
  last : ∀ before ∈ t.last, before ≤ since
  passes : ∀ pass ∈ t.passes, pass.1 ≤ since
  phase : w.phase = .waiting ∧ t.phase = .waiting ∧ t.attempts = 0 ∨
    (w.phase = .deciding ∨ ∃ begun, w.phase = .passing begun) ∧ t.phase = .passing since

/-- A loop that has started leaves what comes before its start alone. -/
theorem step_looping (h : w.phase.isLooping = true) {e : WatchEvent}
    (he : e = .rebuild ∨ (∃ whole returning, e = .rebuilt whole returning) ∨ e = .start) :
    w.step self e = w := by
  rcases he with rfl | ⟨whole, returning, rfl⟩ | rfl
  all_goals
    unfold Watch.step
    dsimp only
    split
    · next hphase =>
      rw [hphase] at h
      cases h
    · rfl

theorem step_tick_of_ne (h : w.phase ≠ .waiting) : w.step self .tick = w := by
  unfold Watch.step
  dsimp only
  split
  · next hphase => exact absurd hphase h
  · rfl

/-- The pass that spends the attempts: it ends with nothing filled and nothing left to do. -/
theorem finish_passing {since : ℕ} (h : w.phase = .passing since) :
    w.step self (.finish ∅ true false) =
      { w.ended since false with
        membership := w.membership.vouch ∅ since
        last := some since
        attempts := 0 } := by
  unfold Watch.step
  dsimp only
  rw [h]
  rfl

/-- Where no pass is under way, none ends. -/
theorem step_ends_of_ne (h : ∀ begun, w.phase ≠ .passing begun) {e : WatchEvent}
    (he : e = .threw ∨ ∃ filled settled moved, e = .finish filled settled moved) :
    w.step self e = w := by
  rcases he with rfl | ⟨filled, settled, moved, rfl⟩
  · unfold Watch.step
    dsimp only
    split
    · next begun hphase => exact absurd hphase (h begun)
    · rfl
  · unfold Watch.step
    dsimp only
    split
    · next begun hphase => exact absurd hphase (h begun)
    · rfl

theorem Spends.ends {t : Watch} {since begun : ℕ} (h : w.Spends t since)
    (hphase : w.phase = .passing begun) {e : WatchEvent}
    (he : e = .threw ∨ ∃ filled settled moved, e = .finish filled settled moved) :
    (w.step self e).Spends (t.step self (.finish ∅ true false)) since := by
  obtain ⟨kept, hkept⟩ := h.membership
  have hpassing : t.phase = .passing since := by
    rcases h.phase with ⟨hno, -⟩ | ⟨-, hyes⟩
    · rw [hphase] at hno
      cases hno
    · exact hyes
  have hended : (w.step self e).phase = .waiting ∧ (w.step self e).seen = w.seen ∧
      (w.step self e).registered = w.registered ∧
      (w.step self e).registrations = w.registrations ∧
      ∃ filled, (w.step self e).membership = { w.membership with filled } := by
    rcases he with rfl | ⟨filled, settled, moved, rfl⟩
    · unfold Watch.step
      dsimp only
      rw [hphase]
      exact ⟨rfl, rfl, rfl, rfl, _, rfl⟩
    · unfold Watch.step
      dsimp only
      rw [hphase]
      exact ⟨rfl, rfl, rfl, rfl, _, rfl⟩
  obtain ⟨hwaiting, hseen, hregistered, hregistrations, filled, hmembership⟩ := hended
  rw [finish_passing hpassing]
  refine ⟨⟨(t.membership.vouch ∅ since).filled, ?_⟩, h.registrations.trans hregistrations.symm,
    h.seen.trans hseen.symm, h.registered.trans hregistered.symm, ?_, ?_,
    Or.inl ⟨hwaiting, rfl, rfl⟩⟩
  · rw [hmembership]
    dsimp only
    rw [hkept]
    rfl
  · rintro before hbefore
    exact (Option.mem_some_iff.mp hbefore).ge
  · intro pass hpass
    rcases List.mem_cons.mp hpass with rfl | hearlier
    · exact le_rfl
    · exact h.passes pass hearlier

variable (self) in
/-- Whatever comes but a reading, there is what comes of a loop that spends its attempts, with
nothing changed but its passes. -/
theorem Spends.step {t : Watch} {since : ℕ} (h : w.Spends t since) {e : WatchEvent}
    (htick : e = .tick → w.phase ≠ .waiting) :
    ∃ es, outside es = outside [e] ∧ (w.step self e).Spends (run (Watch.step self) t es) since := by
  obtain ⟨kept, hkept⟩ := h.membership
  have hloop : w.phase.isLooping = true ∧ t.phase.isLooping = true := by
    rcases h.phase with ⟨hw, ht, -⟩ | ⟨hw | ⟨begun, hw⟩, ht⟩
    all_goals
      rw [hw, ht]
      exact ⟨rfl, rfl⟩
  -- what the loop leaves alone, the other loop leaves alone
  have halone : ∀ e : WatchEvent, w.step self e = w → t.step self e = t →
      ∃ es, outside es = outside [e] ∧ (w.step self e).Spends (run (Watch.step self) t es) since :=
    fun e hw ht => ⟨[e], rfl, by rwa [hw, run_cons, ht]⟩
  -- however its pass ends, the other loop's ends with nothing filled
  have hends : ∀ e : WatchEvent,
      e = .threw ∨ (∃ filled settled moved, e = .finish filled settled moved) →
      ∃ es, outside es = outside [e] ∧
        (w.step self e).Spends (run (Watch.step self) t es) since := by
    intro e he
    have hnone : outside [e] = [] := by
      rcases he with rfl | ⟨filled, settled, moved, rfl⟩
      · rfl
      · rfl
    rw [hnone]
    by_cases hphase : ∃ begun, w.phase = .passing begun
    · obtain ⟨begun, hphase⟩ := hphase
      exact ⟨[.finish ∅ true false], rfl, h.ends hphase he⟩
    · refine ⟨[], rfl, ?_⟩
      rw [step_ends_of_ne (fun begun hno => hphase ⟨begun, hno⟩) he]
      exact h
  cases e with
  | replace members =>
    refine ⟨[.replace members], rfl, ⟨⟨kept ∩ holdingsOf self members, ?_⟩, h.registrations, h.seen,
      h.registered, h.last, h.passes, h.phase⟩⟩
    change t.membership.replaceMembers self members = _
    rw [hkept]
    rfl
  | register =>
    exact ⟨[.register], rfl, ⟨h.membership, congrArg (· + 1) h.registrations, h.seen, h.registered,
      h.last, h.passes, h.phase⟩⟩
  | rebuild =>
    exact halone _ (step_looping hloop.1 (Or.inl rfl)) (step_looping hloop.2 (Or.inl rfl))
  | rebuilt whole returning =>
    have he : ∃ a b, WatchEvent.rebuilt whole returning = .rebuilt a b := ⟨_, _, rfl⟩
    exact halone _ (step_looping hloop.1 (Or.inr (Or.inl he)))
      (step_looping hloop.2 (Or.inr (Or.inl he)))
  | start =>
    exact halone _ (step_looping hloop.1 (Or.inr (Or.inr rfl)))
      (step_looping hloop.2 (Or.inr (Or.inr rfl)))
  | tick =>
    have hpassing : t.phase = .passing since :=
      h.phase.resolve_left (fun hno => htick rfl hno.1) |>.2
    exact halone _ (step_tick_of_ne (htick rfl)) (step_tick_of_ne (by rw [hpassing]; simp))
  | begin =>
    refine ⟨[], rfl, ?_⟩
    unfold Watch.step
    dsimp only
    split
    · next hphase =>
      have hpassing := (h.phase.resolve_left fun hno => by rw [hphase] at hno; cases hno.1).2
      exact ⟨h.membership, h.registrations, h.seen, h.registered, h.last, h.passes,
        Or.inr ⟨Or.inr ⟨_, rfl⟩, hpassing⟩⟩
    · exact h
  | finish filled settled moved => exact hends _ (Or.inr ⟨_, _, _, rfl⟩)
  | threw => exact hends _ (Or.inl rfl)

/-- A tick that sees nothing new finds the attempts spent, or begins the pass that may spend
them. -/
theorem Known.spends_tick (h : w.Known) (hphase : w.phase = .waiting) {before : ℕ}
    (hbefore : before ∈ (w.step self .tick).quiet) :
    ∃ es, outside es = outside [.tick] ∧
      (w.step self .tick).Spends (run (Watch.step self) w es) before := by
  have htick : w.step self .tick = if w.Differs then w.noticed
      else if 0 < w.attempts then
        { w with
          phase := .deciding
          attempts := w.attempts - 1
          quiet := some w.membership.generation }
      else { w with quiet := some w.membership.generation } := by
    unfold Watch.step
    dsimp only
    rw [hphase]
  split_ifs at htick with hdiffers hattempts
  · -- what sees something new leaves nothing to read over
    rw [htick] at hbefore
    cases hbefore
  · refine ⟨[.tick, .begin], rfl, ?_⟩
    rw [run_cons, run_cons, run_nil]
    rw [htick] at hbefore ⊢
    obtain rfl := Option.some.inj hbefore
    exact ⟨⟨_, rfl⟩, rfl, rfl, rfl, h.last_le, h.passes_le, Or.inr ⟨Or.inl rfl, rfl⟩⟩
  · refine ⟨[.tick], rfl, ?_⟩
    rw [run_cons, run_nil]
    rw [htick] at hbefore ⊢
    obtain rfl := Option.some.inj hbefore
    exact ⟨⟨_, rfl⟩, rfl, rfl, rfl, h.last_le, h.passes_le,
      Or.inl ⟨hphase, hphase, Nat.eq_zero_of_not_pos hattempts⟩⟩

/-- A loop that starts with nothing to do has spent its attempts. -/
theorem Known.spends_start (h : w.Known) {behind : Bool} (hphase : w.phase = .joining behind)
    {before : ℕ} (hbefore : before ∈ (w.step self .start).quiet) :
    (w.step self .start).Spends (w.step self .start) before := by
  have hread := h.read
  rw [HasRead, hphase] at hread
  obtain ⟨hpasses, hquiet⟩ := hread
  have hstart : w.step self .start = if behind then { w.noticed with phase := .waiting } else
      { w with
        phase := .waiting
        seen := w.membership.members
        registered := w.registrations
        attempts := 0 } := by
    unfold Watch.step
    dsimp only
    rw [hphase]
  rw [hstart] at hbefore ⊢
  cases behind with
  | true => cases hbefore
  | false =>
    obtain ⟨hsame, -⟩ := hquiet rfl
    refine ⟨⟨_, rfl⟩, rfl, rfl, rfl, fun since hsince => ?_, fun pass hpass => ?_,
      Or.inl ⟨rfl, rfl, rfl⟩⟩
    · have heq : some before = some since := (hsame.trans hsince) ▸ hbefore.symm
      exact (Option.some.inj heq).ge
    · change pass ∈ w.passes at hpass
      rw [hpasses] at hpass
      cases hpass

/-- What a step that is no reading leaves of the last reading. -/
theorem quiet_step (hloop : w.phase.isLooping = true) {e : WatchEvent}
    (htick : e = .tick → w.phase ≠ .waiting) : (w.step self e).quiet = w.quiet := by
  cases e with
  | replace members => rfl
  | register => rfl
  | rebuild => rw [step_looping hloop (Or.inl rfl)]
  | rebuilt whole returning => rw [step_looping hloop (Or.inr (Or.inl ⟨_, _, rfl⟩))]
  | start => rw [step_looping hloop (Or.inr (Or.inr rfl))]
  | tick => rw [step_tick_of_ne (htick rfl)]
  | begin => unfold Watch.step; dsimp only; split <;> rfl
  | finish filled settled moved => unfold Watch.step; dsimp only; split <;> rfl
  | threw => unfold Watch.step; dsimp only; split <;> rfl

/-- Nothing but its start brings the loop about. -/
theorem isLooping_of_step {e : WatchEvent} (h : (w.step self e).phase.isLooping = true) :
    w.phase.isLooping = true ∨ e = .start ∧ ∃ behind, w.phase = .joining behind := by
  cases hphase : w.phase with
  | waiting => exact Or.inl rfl
  | deciding => exact Or.inl rfl
  | passing since => exact Or.inl rfl
  | discovering => cases e <;> simp [Watch.step, hphase, Phase.isLooping] at h
  | rebuilding since =>
    cases e <;> simp [Watch.step, hphase, Phase.isLooping] at h
    split_ifs at h
  | joining behind =>
    cases e with
    | start => exact Or.inr ⟨rfl, behind, rfl⟩
    | _ => simp [Watch.step, hphase, Phase.isLooping] at h

/-- **However a run came to a reading that saw nothing new**, passes at other moments and with other
ends come to it with the attempts spent. -/
theorem exists_spends (self : Bytes) (es : List WatchEvent) {before : ℕ}
    (hloop : (run (Watch.step self) {} es).phase.isLooping = true)
    (hquiet : before ∈ (run (Watch.step self) {} es).quiet) :
    ∃ other, outside other = outside es ∧
      (run (Watch.step self) {} es).Spends (run (Watch.step self) {} other) before := by
  induction es using List.reverseRecOn generalizing before with
  | nil => cases hloop
  | append_singleton es e ih =>
    have hknown : (run (Watch.step self) {} es).Known := known_run es
    rw [run_append, run_cons, run_nil] at hloop hquiet ⊢
    by_cases hreading : e = .tick ∧ (run (Watch.step self) {} es).phase = .waiting
    · obtain ⟨rfl, hphase⟩ := hreading
      obtain ⟨more, hmore, hspends⟩ := hknown.spends_tick hphase hquiet
      refine ⟨es ++ more, ?_, ?_⟩
      · rw [outside_append, outside_append, hmore]
      · rwa [run_append]
    rcases isLooping_of_step hloop with hbefore | ⟨rfl, behind, hphase⟩
    · have htick : e = .tick → (run (Watch.step self) {} es).phase ≠ .waiting :=
        fun he hphase => hreading ⟨he, hphase⟩
      rw [quiet_step hbefore htick] at hquiet
      obtain ⟨other, hother, hspends⟩ := ih hbefore hquiet
      obtain ⟨more, hmore, hstep⟩ := hspends.step self htick
      refine ⟨other ++ more, ?_, ?_⟩
      · rw [outside_append, outside_append, hother, hmore]
      · rwa [run_append]
    · refine ⟨es ++ [.start], rfl, ?_⟩
      rw [run_append, run_cons, run_nil]
      exact hknown.spends_start hphase hquiet

/-- A loop that has spent its attempts has no pass to come for what was gained since. -/
theorem Spends.not_watched {t : Watch} {since : ℕ} (h : w.Spends t since) (hknown : t.Known)
    (hphase : w.phase = .waiting) (hdiffers : ¬w.Differs) {partition : Partition}
    (hmem : partition ∈ w.membership.holding)
    (hlate : since < w.membership.heldSince partition) : ¬t.Watched := by
  obtain ⟨filled, hmembership⟩ := h.membership
  obtain ⟨-, hwaiting, hattempts⟩ := h.phase.resolve_right fun hno => by
    rw [hphase] at hno
    rcases hno.1 with hno | ⟨begun, hno⟩
    · cases hno
    · cases hno
  have hheld : t.membership.heldSince partition = w.membership.heldSince partition := by
    rw [hmembership]
  have hgained : t.GainedSince partition := fun before hbefore => by
    have hle := h.last before hbefore
    omega
  have hidle : t.idle partition = 0 := List.countP_eq_zero.mpr fun pass hpass => by
    have hle := h.passes pass hpass
    simp only [decide_eq_true_eq, not_and]
    omega
  have hsame : ¬t.Differs := by
    unfold Differs at hdiffers ⊢
    rwa [hmembership, h.seen, h.registrations, h.registered]
  intro hwatched
  rcases hwatched hwaiting partition (by rw [hmembership]; exact hmem)
    (fun hfilled => (hknown.filled partition hfilled).2 hgained) hgained with hleft | hyes | hmany
  · omega
  · exact hsame hyes
  · rw [hidle] at hmany
    exact absurd hmany (by decide)

end Watch

/-- **No partition is held and left with no pass to come** in any run whose ticks read over nothing
that was gained. Where a tick reads over a gain, passes at other moments and with other ends, among
the same replacements, registrations and readings, leave one. -/
theorem watched_by_readings (self : Bytes) (es : List WatchEvent) :
    (Throughout (Watch.step self) (fun w e => e = .tick → w.ReadsOverNothing) {} es →
      Throughout (Watch.step self) (fun w e => e = .tick → w.Watched) {} es) ∧
    ((∀ other, outside other = outside es →
        Throughout (Watch.step self) (fun w e => e = .tick → w.Watched) {} other) →
      Throughout (Watch.step self) (fun w e => e = .tick → w.ReadsOverNothing) {} es) := by
  constructor
  · exact Throughout.imp (I := fun w => w.Known ∧ w.Attended)
      (fun _ e h hover => ⟨h.1.step e, h.2.step h.1 hover⟩)
      (fun _ _ h hover htick => h.2.watched (hover htick))
      ⟨Watch.known_start, fun hno => by cases hno⟩
  · intro h
    refine throughout_iff.mpr ?_
    rintro a _ b rfl rfl hphase hdiffers before hbefore partition hmem
    by_contra hlate
    obtain ⟨other, hother, hspends⟩ :=
      Watch.exists_spends self a (by rw [hphase]; rfl) hbefore
    have hall := h (other ++ .tick :: b) (by rw [outside_append, outside_append, hother])
    exact hspends.not_watched (Watch.known_run other) hphase hdiffers hmem (not_le.mp hlate)
      (throughout_iff.mp hall other .tick b rfl rfl)

/-! ### A change that is seen, and one that is undone between two ticks -/

def twoNodes : List Member := [⟨ascii "a", ascii "z"⟩, ⟨ascii "b", ascii "z"⟩]

def threeNodes : List Member := twoNodes ++ [⟨ascii "c", ascii "z"⟩]

/-- A partition that moves to the third node. -/
def movedPartition : Partition := ⟨4, by decide⟩

theorem holdings_movedPartition : movedPartition ∈ holdingsOf (ascii "a") twoNodes ∧
    movedPartition ∉ holdingsOf (ascii "a") threeNodes := by
  have hfew : ¬twoNodes.length < 2 ∧ ¬threeNodes.length < 2 := by decide
  have howned : (ownersOf (partitionName movedPartition) twoNodes).any (·.node =
    ascii "a") = true := by
    decide +kernel
  have hlost : (ownersOf (partitionName movedPartition) threeNodes).any (·.node =
    ascii "a") = false := by
    decide +kernel
  rw [holdingsOf, holdingsOf, if_neg hfew.1, if_neg hfew.2, Finset.mem_filter,
    Finset.mem_filter, howned, hlost]
  simp

/-- A third node comes and goes, and a tick of the loop comes after each. -/
def seenTwice : List WatchEvent :=
  [.replace twoNodes, .rebuild, .rebuilt true false, .start, .replace threeNodes, .tick,
    .replace twoNodes, .tick, .tick, .begin, .threw, .tick]

/-- What it took along is held again, and the passes for it are to come. -/
theorem watched_by_readings_seenTwice : Throughout (Watch.step (ascii "a"))
    (fun w e => e = .tick → w.Watched) {} seenTwice := by
  have hheld : ∀ members (m : Membership), (∀ partition, m.heldSince partition ≤ m.generation) →
      ∀ partition, (m.replaceMembers (ascii "a") members).heldSince partition ≤
        m.generation + 1 := by
    intro members m hm partition
    unfold Membership.replaceMembers
    dsimp only
    split_ifs
    · exact le_rfl
    · exact (hm partition).trans (Nat.le_succ _)
  refine (watched_by_readings (ascii "a") seenTwice).1 ⟨nofun, nofun, nofun, nofun, nofun,
    fun _ _ hsame => absurd (Or.inl (by decide)) hsame, nofun,
    fun _ _ hsame => absurd (Or.inl (by decide)) hsame, fun _ _ _ => nofun, nofun, nofun,
    fun _ _ _ before hbefore partition _ => ?_, trivial⟩
  -- the pass threw, and nothing was gained since the tick that decided to run it
  obtain rfl := Option.some.inj hbefore
  exact hheld _ _ (hheld _ _ (hheld _ _ fun _ => le_rfl)) partition

/-- A third node comes and goes between two ticks of the loop. -/
def undone : List WatchEvent :=
  [.replace twoNodes, .rebuild, .rebuilt true false, .start, .replace threeNodes, .replace twoNodes,
    .tick]

/-- What it took along is held again, and no pass comes for it. -/
theorem not_watched_undone : ¬Throughout (Watch.step (ascii "a"))
    (fun w e => e = .tick → w.Watched) {} undone := by
  intro h
  obtain ⟨-, -, -, -, -, -, htick, -⟩ := h
  obtain ⟨hheld, hlost⟩ := holdings_movedPartition
  have hunfilled : movedPartition ∉ (((({} : Membership).replaceMembers (ascii "a") twoNodes).vouch
      Finset.univ 1).replaceMembers (ascii "a") threeNodes).filled ∩ holdingsOf
        (ascii "a") twoNodes :=
    fun hmem => hlost (Finset.mem_inter.mp (Finset.mem_inter.mp hmem).1).2
  have hgained : (run (Watch.step (ascii "a")) {} (undone.take 6)).GainedSince movedPartition := by
    intro since hlast
    have hone : 1 = since := Option.some.inj hlast
    have hheldSince : (run (Watch.step (ascii "a")) {} (undone.take 6)).membership.heldSince
        movedPartition = 3 := Watch.heldSince_of_gained hheld hlost
    omega
  rcases htick rfl rfl movedPartition hheld hunfilled hgained with hattempts | hdiffers | hidle
  · exact absurd hattempts (lt_irrefl 0)
  · rcases hdiffers with hsame | hagain
    · exact absurd hsame (by decide)
    · exact hagain rfl
  · exact absurd hidle (by decide)

end AsyncDatabase
