import AsyncDatabase.Library.Run
import AsyncDatabase.Repository.Effect

/-!
# Passes beside writes

One column family under any number of calls of `write_record`, `import_records` and `clear_records`,
taken apart into the steps that the database makes whole: a write of a record, which reads and
writes under its key's lock, each `Get` of a pass, and the file or the batch a pass ends with.
Passes take no lock, so anything may come between what a pass reads and what it does about it.

`Forward` is the property of a step, that no version gives way to an older one, and `Undisturbed`
the condition on it; `forward_iff` says that the one holds along a run exactly where the other does.
-/

namespace AsyncDatabase

open Bytes (ascii)
open Machine Throwing

/-- A file of records, which holds each key once. -/
structure SstFile where
  records : List Store.Carried
  nodup : (records.map Prod.fst).Nodup

/-- The walks over a file: the two of an import, and the one of a clear. -/
inductive Walk where
  | first
  | second
  | clear
  deriving DecidableEq, Repr

/-- A record a walk decided to ingest or to delete, and when it read what is held for its key. -/
structure Decision where
  carried : Store.Carried
  readAt : ℕ

/-- A call of `import_records` or of `clear_records` that has not ended. -/
structure Pass where
  walk : Walk
  file : SstFile
  /-- What the iterator has not come to. -/
  left : List Store.Carried := file.records
  decided : List Decision := []
  /-- How many of the keys the first walk found held. -/
  held : ℕ := 0

/-- A column family with the passes that run on it. -/
structure Shared where
  family : Family := ∅
  passes : ℕ → Option Pass := fun _ => none
  /-- How many steps have been taken. -/
  clock : ℕ := 0
  /-- When a version last came to stand under a key. No call reads it. -/
  landed : Bytes → ℕ := fun _ => 0

inductive PassEvent where
  | write (record : Record)
  | startImport (id : ℕ) (file : SstFile)
  | startClear (id : ℕ) (file : SstFile)
  /-- A pass reads what is held for the next key of its file, or does what it decided. -/
  | advance (id : ℕ)

namespace Pass

def decides (p : Pass) (family : Family) (carried : Store.Carried) : Bool :=
  if p.walk = .clear then Store.clears family carried else Store.takes family carried

/-- One turn of a walk: the `Get` of a key, and what is decided from it. -/
def look (p : Pass) (family : Family) (clock : ℕ) (carried : Store.Carried)
    (left : List Store.Carried) : Pass :=
  { p with
    left
    decided := if p.decides family carried then p.decided ++ [⟨carried, clock⟩] else p.decided
    held := if carried.1 ∈ family then p.held + 1 else p.held }

section Look

variable (p : Pass) (family : Family) (clock : ℕ) (carried : Store.Carried)
  (left : List Store.Carried)

@[simp] theorem left_look : (p.look family clock carried left).left = left := rfl

@[simp] theorem file_look : (p.look family clock carried left).file = p.file := rfl

@[simp] theorem walk_look : (p.look family clock carried left).walk = p.walk := rfl

@[simp] theorem decides_look : (p.look family clock carried left).decides = p.decides := rfl

theorem decided_look : (p.look family clock carried left).decided =
    if p.decides family carried then p.decided ++ [⟨carried, clock⟩] else p.decided := rfl

theorem held_look : (p.look family clock carried left).held =
    if carried.1 ∈ family then p.held + 1 else p.held := rfl

end Look

end Pass

namespace Shared

def setPass (s : Shared) (id : ℕ) (p : Option Pass) : Shared :=
  { s with passes := Function.update s.passes id p }

/-- Records that came to stand in the family. -/
def land (s : Shared) (family : Family) (keys : List Bytes) : Shared :=
  { s with
    family
    landed := fun key => if key ∈ keys then s.clock + 1 else s.landed key }

def ingest (s : Shared) (records : List Store.Carried) : Shared :=
  s.land (Store.ingest s.family records) (records.map Prod.fst)

def erase (s : Shared) (keys : List Bytes) : Shared :=
  { s with family := Store.eraseAll s.family keys }

def write (s : Shared) (record : Record) : Shared :=
  let key := Store.storeKey record.key
  let value := Record.composeValue record.stamp record.value
  if s.family[key]?.any (Record.isNewer · value) then s else s.land
    (s.family.insert key value) [key]

/-- What a pass does once it has walked its file. -/
def finish (s : Shared) (id : ℕ) (p : Pass) : Shared :=
  if p.decided = [] then s.setPass id none
  else match p.walk with
    | .first =>
      -- a store holding none of the keys takes the file it was sent
      if p.held = 0 then (s.ingest p.file.records).setPass id none
      else s.setPass id (some { walk := .second, file := p.file })
    | .second => (s.ingest (p.decided.map Decision.carried)).setPass id none
    | .clear => (s.erase (p.decided.map (·.carried.1))).setPass id none

def advance (s : Shared) (id : ℕ) : Shared :=
  match s.passes id with
  | none => s
  | some p =>
    match p.left with
    | carried :: left => s.setPass id (some (p.look s.family s.clock carried left))
    | [] => s.finish id p

def step (s : Shared) (e : PassEvent) : Shared :=
  let t := match e with
    | .write record => s.write record
    | .startImport id file => s.setPass id (some { walk := .first, file })
    | .startClear id file => s.setPass id (some { walk := .clear, file })
    | .advance id => s.advance id
  { t with clock := s.clock + 1 }

theorem passes_setPass (s : Shared) (id : ℕ) (p : Option Pass) (other : ℕ) :
    (s.setPass id p).passes other = if other = id then p else s.passes other :=
  Function.update_apply ..

theorem step_idle {s : Shared} {id : ℕ} (hp : s.passes id = none) :
    s.step (.advance id) = { s with clock := s.clock + 1 } := by
  simp only [step, advance, hp]

theorem step_look {s : Shared} {id : ℕ} {p : Pass} (hp : s.passes id = some p)
    {carried : Store.Carried} {left : List Store.Carried} (hleft : p.left = carried :: left) :
    s.step (.advance id) =
      { s.setPass id (some (p.look s.family s.clock carried left)) with clock := s.clock + 1 } := by
  simp only [step, advance, hp, hleft]

theorem step_finish {s : Shared} {id : ℕ} {p : Pass} (hp : s.passes id = some p)
    (hleft : p.left = []) :
    s.step (.advance id) = { s.finish id p with clock := s.clock + 1 } := by
  simp only [step, advance, hp, hleft]

end Shared

/-- What a pass does to the family at its next step: the decisions it ends with, once it has walked
its file. -/
def Pass.due (p : Pass) : List Decision :=
  if p.left = [] ∧ (p.walk = .first → p.held = 0) then p.decided else []

/-- What is held for a key stays, or gives way to a version at least as new, or is deleted by a
clear whose file has a version of the key that is at least as new. -/
def Forward (s : Shared) (e : PassEvent) : Prop :=
  ∀ key held, s.family[key]? = some held →
    match (s.step e).family[key]? with
    | some value => Record.isNewer held value = false
    | none => ∃ id p carried, e = .advance id ∧ s.passes id = some p ∧ p.walk = .clear ∧
        carried ∈ p.file.records ∧ carried.1 = key ∧ Record.isNewer held carried.2 = false

/-- Under no key that a pass is about to write or delete stands a version that came to stand there
after the pass had read what is held, and is newer than the one of its file. -/
def Undisturbed (s : Shared) : PassEvent → Prop
  | .advance id => ∀ p, s.passes id = some p → ∀ decision ∈ p.due, ∀ held,
      s.family[decision.carried.1]? = some held → decision.readAt < s.landed decision.carried.1 →
      Record.isNewer held decision.carried.2 = false
  | _ => True

/-! ### What a pass knows -/

/-- A pass has decided on records of its file, each once, and none of its decisions is overtaken
unless a version came to stand under the key since it was made. -/
structure Pass.Knows (p : Pass) (s : Shared) : Prop where
  parts : (p.decided.map Decision.carried ++ p.left).Sublist p.file.records
  whole : p.walk = .first → p.held = 0 → p.decided.map Decision.carried ++ p.left = p.file.records
  readAt : ∀ decision ∈ p.decided, decision.readAt ≤ s.clock
  decided : ∀ decision ∈ p.decided, s.landed decision.carried.1 ≤ decision.readAt → ∀ held,
    s.family[decision.carried.1]? = some held → Record.isNewer held decision.carried.2 = false

/-- Every pass of the family knows what it is about. -/
def Shared.Sound (s : Shared) : Prop := ∀ id p, s.passes id = some p → p.Knows s

/-- A later state of the family: what a key holds then it held before, or it came to stand there
since. -/
structure Shared.Before (s t : Shared) : Prop where
  clock : s.clock ≤ t.clock
  keys : ∀ key, s.clock < t.landed key ∨
    t.landed key = s.landed key ∧ ∀ held, t.family[key]? = some held → s.family[key]? = some held

theorem Pass.Knows.later {p : Pass} {s t : Shared} (h : p.Knows s) (hst : s.Before t) :
    p.Knows t where
  parts := h.parts
  whole := h.whole
  readAt decision hdecision := (h.readAt decision hdecision).trans hst.clock
  decided decision hdecision hlanded held hheld := by
    rcases hst.keys decision.carried.1 with hsince | ⟨hsame, hbefore⟩
    · have hread := h.readAt decision hdecision
      omega
    · exact h.decided decision hdecision (hsame ▸ hlanded) held (hbefore held hheld)

/-- A pass that starts has decided nothing. -/
theorem Pass.knows_start (walk : Walk) (file : SstFile) (s : Shared) :
    ({ walk, file } : Pass).Knows s where
  parts := List.Sublist.refl _
  whole _ _ := rfl
  readAt decision hdecision := by cases hdecision
  decided decision hdecision := by cases hdecision

/-- What a walk decides on is no older than what is held. -/
theorem Pass.isNewer_of_decides {p : Pass} {family : Family} {carried : Store.Carried}
    (h : p.decides family carried = true) {held : Bytes} (hheld : family[carried.1]? = some held) :
    Record.isNewer held carried.2 = false := by
  unfold Pass.decides at h
  split_ifs at h
  · simpa [Store.clears, hheld] using h
  · rw [Store.takes, hheld] at h
    exact Record.isNewer_asymm h

theorem Pass.Knows.look {p : Pass} {s : Shared} (h : p.Knows s) {carried : Store.Carried}
    {left : List Store.Carried} (hleft : p.left = carried :: left) :
    (p.look s.family s.clock carried left).Knows s := by
  have hparts := h.parts
  rw [hleft] at hparts
  have hdecision : ∀ decision ∈ (p.look s.family s.clock carried left).decided,
      decision ∈ p.decided ∨ p.decides s.family carried = true ∧ decision = ⟨carried, s.clock⟩ := by
    intro decision hmem
    rw [decided_look] at hmem
    split_ifs at hmem with hdecides
    · exact (List.mem_append.mp hmem).imp_right fun hnew => ⟨hdecides, List.mem_singleton.mp hnew⟩
    · exact Or.inl hmem
  refine ⟨?_, fun hfirst hnone => ?_, fun decision hmem => ?_, fun decision hmem => ?_⟩
  · rw [left_look, decided_look, file_look]
    split_ifs
    · simpa using hparts
    · exact ((List.sublist_cons_self carried left).append_left _).trans hparts
  · -- nothing was held for any key so far, so the walk decided on each
    rw [held_look] at hnone
    split_ifs at hnone with hheld
    rw [walk_look] at hfirst
    have htakes : p.decides s.family carried = true := by
      rw [Pass.decides, if_neg (by simp [hfirst]), Store.takes,
        Std.ExtTreeMap.getElem?_eq_none hheld]
      rfl
    rw [left_look, decided_look, file_look, if_pos htakes, ← h.whole hfirst hnone, hleft]
    simp
  · rcases hdecision decision hmem with hold | ⟨-, rfl⟩
    · exact h.readAt decision hold
    · exact le_refl _
  · rcases hdecision decision hmem with hold | ⟨hdecides, rfl⟩
    · exact h.decided decision hold
    · exact fun _ held hheld => Pass.isNewer_of_decides hdecides hheld

/-! ### What a step does -/

theorem Shared.before_land (s : Shared) (family : Family) (keys : List Bytes)
    (h : ∀ key, key ∉ keys → family[key]? = s.family[key]?) : s.Before (s.land family keys) where
  clock := le_refl _
  keys key := by
    unfold Shared.land
    dsimp only
    split_ifs with hkey
    · exact Or.inl (by omega)
    · exact Or.inr ⟨rfl, fun held hheld => by rw [← h key hkey, hheld]⟩

theorem Shared.before_setPass {s t : Shared} (h : s.Before t) (id : ℕ) (p : Option Pass) :
    s.Before (t.setPass id p) := ⟨h.clock, h.keys⟩

theorem Shared.before_refl (s : Shared) : s.Before s :=
  ⟨le_refl _, fun _ => Or.inr ⟨rfl, fun _ => id⟩⟩

theorem Shared.before_ingest (s : Shared) (records : List Store.Carried) :
    s.Before (s.ingest records) := by
  refine s.before_land _ _ fun key hkey => ?_
  have hnone : ∀ (l : List Store.Carried) (family : Family), key ∉ l.map Prod.fst →
      (Store.ingest family l)[key]? = family[key]? := by
    intro l
    induction l with
    | nil => exact fun _ _ => rfl
    | cons carried l ih =>
      intro family hno
      rw [List.map_cons, List.mem_cons, not_or] at hno
      change (Store.ingest (family.insert carried.1 carried.2) l)[key]? = _
      rw [ih _ hno.2, Std.ExtTreeMap.getElem?_insert,
        if_neg fun heq => hno.1 (Std.LawfulEqCmp.eq_of_compare heq).symm]
  exact hnone records s.family hkey

theorem Shared.before_erase (s : Shared) (keys : List Bytes) : s.Before (s.erase keys) where
  clock := le_refl _
  keys key := by
    refine Or.inr ⟨rfl, fun held hheld => ?_⟩
    change (Store.eraseAll s.family keys)[key]? = some held at hheld
    rw [Store.getElem?_eraseAll] at hheld
    split_ifs at hheld
    exact hheld

/-- **What the end of a walk does**: nothing to the family, or the file or the batch of what is
due. -/
theorem Shared.finish_cases {s : Shared} {p : Pass} (h : p.Knows s) (hleft : p.left = []) (id : ℕ) :
    (p.due = [] ∧ ∃ next, s.finish id p = s.setPass id next ∧
        (next = none ∨ next = some { walk := .second, file := p.file })) ∨
      (p.walk ≠ .clear ∧
        s.finish id p = (s.ingest (p.due.map Decision.carried)).setPass id none) ∨
      (p.walk = .clear ∧
        s.finish id p = (s.erase (p.due.map (·.carried.1))).setPass id none) := by
  unfold Shared.finish Pass.due
  by_cases hnone : p.decided = []
  · rw [if_pos hnone, hnone, ite_self]
    exact Or.inl ⟨rfl, none, rfl, Or.inl rfl⟩
  · rw [if_neg hnone]
    cases hwalk : p.walk with
    | first =>
      by_cases hheld : p.held = 0
      · have hfile := h.whole hwalk hheld
        rw [hleft, List.append_nil] at hfile
        refine Or.inr (Or.inl ⟨by simp, ?_⟩)
        simp [hleft, hheld, hfile]
      · refine Or.inl ⟨by simp [hheld], some { walk := .second, file := p.file }, ?_, Or.inr rfl⟩
        simp [hheld]
    | second => exact Or.inr (Or.inl ⟨by simp, by simp [hleft]⟩)
    | clear => exact Or.inr (Or.inr ⟨rfl, by simp [hleft]⟩)

/-- The passes after a step: those from before, one that starts a walk, or one a turn further on. -/
theorem Shared.passes_step {s : Shared} (h : s.Sound) {e : PassEvent} {id : ℕ} {p : Pass}
    (hp : (s.step e).passes id = some p) :
    s.passes id = some p ∨ (∃ walk file, p = { walk, file }) ∨
      ∃ q carried left, s.passes id = some q ∧ q.left = carried :: left ∧
        p = q.look s.family s.clock carried left := by
  have hset : ∀ (t : Shared) (other : ℕ) (next : Option Pass), t.passes = s.passes →
      (t.setPass other next).passes id = some p → s.passes id = some p ∨
        id = other ∧ next = some p := by
    intro t other next ht hnext
    rw [passes_setPass, ht] at hnext
    split_ifs at hnext with hid
    · exact Or.inr ⟨hid, hnext⟩
    · exact Or.inl hnext
  cases e with
  | write record =>
    refine Or.inl ?_
    change (s.write record).passes id = some p at hp
    unfold Shared.write at hp
    dsimp only at hp
    split_ifs at hp <;> exact hp
  | startImport other file =>
    rcases hset s other _ rfl hp with hold | ⟨-, hnew⟩
    · exact Or.inl hold
    · exact Or.inr (Or.inl ⟨.first, file, (Option.some.inj hnew).symm⟩)
  | startClear other file =>
    rcases hset s other _ rfl hp with hold | ⟨-, hnew⟩
    · exact Or.inl hold
    · exact Or.inr (Or.inl ⟨.clear, file, (Option.some.inj hnew).symm⟩)
  | advance other =>
    cases hpass : s.passes other with
    | none =>
      rw [step_idle hpass] at hp
      exact Or.inl hp
    | some q =>
      cases hleft : q.left with
      | cons carried left =>
        rw [step_look hpass hleft] at hp
        rcases hset s other _ rfl hp with hold | ⟨rfl, hnew⟩
        · exact Or.inl hold
        · exact Or.inr (Or.inr ⟨q, carried, left, hpass, hleft, (Option.some.inj hnew).symm⟩)
      | nil =>
        rw [step_finish hpass hleft] at hp
        rcases finish_cases (h other q hpass) hleft other with ⟨-, next, hfinish, hnext⟩ |
          ⟨-, hfinish⟩ | ⟨-, hfinish⟩
        · rw [hfinish] at hp
          rcases hset s other _ rfl hp with hold | ⟨-, hnew⟩
          · exact Or.inl hold
          · rcases hnext with hnext | hnext
            · rw [hnext] at hnew
              cases hnew
            · rw [hnext] at hnew
              exact Or.inr (Or.inl ⟨.second, q.file, (Option.some.inj hnew).symm⟩)
        · rw [hfinish] at hp
          exact Or.inl ((hset _ other _ rfl hp).resolve_right fun hno => by cases hno.2)
        · rw [hfinish] at hp
          exact Or.inl ((hset _ other _ rfl hp).resolve_right fun hno => by cases hno.2)

theorem Shared.before_step {s : Shared} (h : s.Sound) (e : PassEvent) : s.Before (s.step e) := by
  -- the step takes one turn of the clock besides
  have hturn : ∀ t, s.Before t → s.Before { t with clock := s.clock + 1 } := fun t ht =>
    ⟨Nat.le_succ _, ht.keys⟩
  cases e with
  | write record =>
    refine hturn _ ?_
    unfold Shared.write
    dsimp only
    split_ifs
    · exact s.before_refl
    · refine s.before_land _ _ fun key hkey => ?_
      rw [Std.ExtTreeMap.getElem?_insert,
        if_neg fun heq => hkey (List.mem_singleton.mpr (Std.LawfulEqCmp.eq_of_compare heq).symm)]
  | startImport id file => exact hturn _ (before_setPass s.before_refl id _)
  | startClear id file => exact hturn _ (before_setPass s.before_refl id _)
  | advance id =>
    cases hpass : s.passes id with
    | none =>
      rw [step_idle hpass]
      exact hturn _ s.before_refl
    | some p =>
      cases hleft : p.left with
      | cons carried left =>
        rw [step_look hpass hleft]
        exact hturn _ (before_setPass s.before_refl id _)
      | nil =>
        rw [step_finish hpass hleft]
        refine hturn _ ?_
        rcases finish_cases (h id p hpass) hleft id with ⟨-, next, hfinish, -⟩ | ⟨-, hfinish⟩ |
          ⟨-, hfinish⟩
        · rw [hfinish]
          exact before_setPass s.before_refl id next
        · rw [hfinish]
          exact before_setPass (s.before_ingest _) id none
        · rw [hfinish]
          exact before_setPass (s.before_erase _) id none

/-- **Every step keeps what the passes know.** -/
theorem Shared.sound_step {s : Shared} (h : s.Sound) (e : PassEvent) : (s.step e).Sound := by
  intro id p hp
  rcases passes_step h hp with hold | ⟨walk, file, rfl⟩ | ⟨q, carried, left, hq, hleft, rfl⟩
  · exact (h id p hold).later (before_step h e)
  · exact Pass.knows_start walk file _
  · exact ((h id q hq).look hleft).later (before_step h e)

/-! ### Which steps lose nothing -/

theorem Pass.Knows.sublist_due {p : Pass} {s : Shared} (h : p.Knows s) :
    (p.due.map Decision.carried).Sublist p.file.records := by
  unfold Pass.due
  split_ifs
  · exact (List.sublist_append_left _ _).trans h.parts
  · exact List.nil_sublist _

theorem Pass.Knows.nodup_due {p : Pass} {s : Shared} (h : p.Knows s) :
    ((p.due.map Decision.carried).map Prod.fst).Nodup :=
  p.file.nodup.sublist (h.sublist_due.map _)

/-- Nothing that is due is older than what is held for its key. -/
def Pass.Current (p : Pass) (s : Shared) : Prop :=
  ∀ decision ∈ p.due, ∀ held, s.family[decision.carried.1]? = some held →
    Record.isNewer held decision.carried.2 = false

/-- What is due is older than what is held only where that came to stand since it was decided. -/
theorem Pass.Knows.current_iff {p : Pass} {s : Shared} (h : p.Knows s) :
    p.Current s ↔ ∀ decision ∈ p.due, ∀ held, s.family[decision.carried.1]? = some held →
      decision.readAt < s.landed decision.carried.1 →
      Record.isNewer held decision.carried.2 = false := by
  constructor
  · exact fun hcurrent decision hdue held hheld _ => hcurrent decision hdue held hheld
  · intro hundisturbed decision hdue held hheld
    rcases lt_or_ge decision.readAt (s.landed decision.carried.1) with hsince | hbefore
    · exact hundisturbed decision hdue held hheld hsince
    · refine h.decided decision ?_ hbefore held hheld
      unfold Pass.due at hdue
      split_ifs at hdue
      · exact hdue
      · cases hdue

/-- A step that leaves the family as it is loses nothing. -/
theorem forward_of_family {s : Shared} {e : PassEvent} (h : (s.step e).family = s.family) :
    Forward s e := by
  intro key held hheld
  rw [h, hheld]
  exact Record.isNewer_self held

theorem forward_iff_step_ingest {s : Shared} {id : ℕ} {p : Pass} (h : p.Knows s)
    (hfamily : (s.step (.advance id)).family =
      Store.ingest s.family (p.due.map Decision.carried)) :
    Forward s (.advance id) ↔ p.Current s := by
  constructor
  · intro hforward decision hdue held hheld
    have hkey := hforward decision.carried.1 held hheld
    rw [hfamily, Store.getElem?_ingest h.nodup_due, Maps.find?_key_eq_some h.nodup_due
      (List.mem_map.mpr ⟨decision, hdue, rfl⟩)] at hkey
    exact hkey
  · intro hcurrent key held hheld
    rw [hfamily, Store.getElem?_ingest h.nodup_due]
    cases hfind : (p.due.map Decision.carried).find? (·.1 = key) with
    | none =>
      rw [hheld]
      exact Record.isNewer_self held
    | some carried =>
      obtain ⟨decision, hdue, rfl⟩ := List.mem_map.mp (List.mem_of_find?_eq_some hfind)
      obtain rfl : decision.carried.1 = key := by simpa using List.find?_some hfind
      exact hcurrent decision hdue held hheld

theorem forward_iff_step_erase {s : Shared} {id : ℕ} {p : Pass} (h : p.Knows s)
    (hp : s.passes id = some p) (hwalk : p.walk = .clear)
    (hfamily : (s.step (.advance id)).family =
      Store.eraseAll s.family (p.due.map (·.carried.1))) :
    Forward s (.advance id) ↔ p.Current s := by
  constructor
  · intro hforward decision hdue held hheld
    have hkey := hforward decision.carried.1 held hheld
    rw [hfamily, Store.getElem?_eraseAll, if_pos (List.mem_map.mpr ⟨decision, hdue, rfl⟩)] at hkey
    obtain ⟨other, q, carried, hother, hq, -, hcarried, hsame, hnewer⟩ := hkey
    obtain rfl : id = other := by injection hother
    obtain rfl : p = q := Option.some.inj (hp.symm.trans hq)
    -- the file has the key once
    have hmem : decision.carried ∈ p.file.records :=
      h.sublist_due.subset (List.mem_map.mpr ⟨decision, hdue, rfl⟩)
    obtain rfl : carried = decision.carried :=
      List.inj_on_of_nodup_map p.file.nodup hcarried hmem hsame
    exact hnewer
  · intro hcurrent key held hheld
    rw [hfamily, Store.getElem?_eraseAll]
    split_ifs with hdeleted
    · obtain ⟨decision, hdue, rfl⟩ := List.mem_map.mp hdeleted
      exact ⟨id, p, decision.carried, rfl, hp, hwalk,
        h.sublist_due.subset (List.mem_map.mpr ⟨decision, hdue, rfl⟩), rfl,
        hcurrent decision hdue held hheld⟩
    · rw [hheld]
      exact Record.isNewer_self held

/-- **A step loses nothing exactly if it is undisturbed.** -/
theorem forward_iff_undisturbed {s : Shared} (h : s.Sound) (e : PassEvent) :
    Forward s e ↔ Undisturbed s e := by
  cases e with
  | write record =>
    refine iff_of_true (fun key held hheld => ?_) trivial
    change match (s.write record).family[key]? with
      | some value => Record.isNewer held value = false
      | none => _
    unfold Shared.write
    dsimp only
    split_ifs with hnewer
    · rw [hheld]
      exact Record.isNewer_self held
    · change match (s.family.insert _ _)[key]? with
        | some value => Record.isNewer held value = false
        | none => _
      rw [Std.ExtTreeMap.getElem?_insert]
      split_ifs with hkey
      · obtain rfl := Std.LawfulEqCmp.eq_of_compare hkey
        rw [hheld] at hnewer
        simpa using hnewer
      · rw [hheld]
        exact Record.isNewer_self held
  | startImport id file => exact iff_of_true (forward_of_family rfl) trivial
  | startClear id file => exact iff_of_true (forward_of_family rfl) trivial
  | advance id =>
    cases hpass : s.passes id with
    | none =>
      refine iff_of_true (forward_of_family ?_) fun p hp => absurd (hpass.symm.trans hp) (by simp)
      rw [Shared.step_idle hpass]
    | some p =>
      have hp := h id p hpass
      have hundisturbed : Undisturbed s (.advance id) ↔ p.Current s := by
        rw [hp.current_iff]
        constructor
        · exact fun hall => hall p hpass
        · intro hall q hq
          obtain rfl : p = q := Option.some.inj (hpass.symm.trans hq)
          exact hall
      rw [hundisturbed]
      cases hleft : p.left with
      | cons carried left =>
        refine iff_of_true (forward_of_family ?_) fun decision hdecision => ?_
        · rw [Shared.step_look hpass hleft]
          rfl
        · simp [Pass.due, hleft] at hdecision
      | nil =>
        have hstep := congrArg Shared.family (Shared.step_finish hpass hleft)
        rcases Shared.finish_cases hp hleft id with ⟨hdue, next, hfinish, -⟩ | ⟨-, hfinish⟩ |
          ⟨hwalk, hfinish⟩
        · rw [hfinish] at hstep
          refine iff_of_true (forward_of_family hstep) fun decision hdecision => ?_
          rw [hdue] at hdecision
          cases hdecision
        · rw [hfinish] at hstep
          exact forward_iff_step_ingest hp hstep
        · rw [hfinish] at hstep
          exact forward_iff_step_erase hp hpass hwalk hstep

/-- **Which runs lose nothing.** Along a run from any family, with any number of writes and passes
side by side, no version gives way to an older one exactly if every step is undisturbed. -/
theorem forward_iff (family : Family) (es : List PassEvent) :
    Throughout Shared.step Forward { family } es ↔
      Throughout Shared.step Undisturbed { family } es := by
  have hstart : Shared.Sound { family } := fun id p hp => by cases hp
  exact throughout_congr (fun _ e h _ => Shared.sound_step h e)
    (fun _ e h => forward_iff_undisturbed h e) hstart

/-! ### Passes that nothing comes between -/

namespace Shared

/-- A walk that nothing comes between decides each record by the family as it found it. -/
theorem run_walk {s : Shared} {id : ℕ} {p : Pass} (hp : s.passes id = some p) :
    ∃ t q, run step s (List.replicate p.left.length (.advance id)) = t ∧ t.family = s.family ∧
      t.passes id = some q ∧ q.left = [] ∧ q.walk = p.walk ∧ q.file = p.file ∧
      q.decided.map Decision.carried =
        p.decided.map Decision.carried ++ p.left.filter (p.decides s.family) ∧
      q.held = p.held + p.left.countP (·.1 ∈ s.family) := by
  induction hlength : p.left.length generalizing s p with
  | zero =>
    have hleft := List.eq_nil_of_length_eq_zero hlength
    exact ⟨s, p, rfl, rfl, hp, hleft, rfl, rfl, by simp [hleft], by simp [hleft]⟩
  | succ n ih =>
    obtain ⟨carried, left, hleft⟩ : ∃ carried left, p.left = carried :: left :=
      List.exists_cons_of_length_eq_add_one hlength
    have hlength' : (p.look s.family s.clock carried left).left.length = n := by
      rw [hleft, List.length_cons] at hlength
      exact Nat.succ.inj hlength
    have hnext : (s.step (.advance id)).passes id =
        some (p.look s.family s.clock carried left) := by
      rw [step_look hp hleft]
      exact (passes_setPass ..).trans (if_pos rfl)
    obtain ⟨t, q, hrun, htf, hq, hql, hqw, hqfile, hqd, hqh⟩ := ih hnext hlength'
    have hfamily : (s.step (.advance id)).family = s.family := by rw [step_look hp hleft]; rfl
    rw [hfamily] at htf hqd hqh
    refine ⟨t, q, hrun, htf, hq, hql, hqw, hqfile, ?_, ?_⟩
    · rw [hqd, Pass.decided_look, Pass.left_look, Pass.decides_look, hleft,
        List.filter_cons]
      split_ifs <;> simp
    · rw [hqh, Pass.held_look, Pass.left_look, hleft, List.countP_cons]
      by_cases hmem : carried.1 ∈ s.family
      · simp [hmem, Nat.add_assoc, Nat.add_comm]
      · simp [hmem]

/-- The second walk of an import, which decides by what it reads itself. -/
theorem run_second {s : Shared} {id : ℕ} {file : SstFile}
    (hp : s.passes id = some { walk := .second, file }) :
    ∃ n, (run step s (List.replicate n (.advance id))).passes id = none ∧
      (run step s (List.replicate n (.advance id))).family =
        Store.ingest s.family (file.records.filter (Store.takes s.family)) := by
  obtain ⟨t, q, hrun, htf, hq, hql, hqw, -, hqd, -⟩ := run_walk hp
  have hdecided : q.decided.map Decision.carried = file.records.filter (Store.takes s.family) := hqd
  have hfinish := step_finish hq hql
  rw [finish] at hfinish
  refine ⟨file.records.length + 1, ?_⟩
  rw [List.replicate_succ', run_append, hrun, run_cons, run_nil, ← hdecided, ← htf]
  by_cases hnone : q.decided = []
  · rw [if_pos hnone] at hfinish
    rw [hfinish, hnone]
    exact ⟨(passes_setPass ..).trans (if_pos rfl), rfl⟩
  · simp only [if_neg hnone, hqw] at hfinish
    rw [hfinish]
    exact ⟨(passes_setPass ..).trans (if_pos rfl), rfl⟩

/-- An import that nothing comes between ends with what it takes ingested. -/
theorem run_import (s : Shared) (id : ℕ) (file : SstFile) :
    ∃ n, (run step s (.startImport id file :: List.replicate n (.advance id))).passes id = none ∧
      (run step s (.startImport id file :: List.replicate n (.advance id))).family =
        Store.ingest s.family (file.records.filter (Store.takes s.family)) := by
  have hp : (s.step (.startImport id file)).passes id = some { walk := .first, file } :=
    (passes_setPass ..).trans (if_pos rfl)
  obtain ⟨t, q, hrun, htf, hq, hql, hqw, hqfile, hqd, hqh⟩ := run_walk hp
  have hfamily : t.family = s.family := htf
  have hdecided : q.decided.map Decision.carried = file.records.filter (Store.takes s.family) := hqd
  have hheld : q.held = file.records.countP (·.1 ∈ s.family) := hqh.trans (Nat.zero_add _)
  have hsplit : ∀ n, run step s (.startImport id file ::
      List.replicate (file.records.length + (1 + n)) (.advance id)) =
      run step (t.step (.advance id)) (List.replicate n (.advance id)) := by
    intro n
    rw [run_cons, List.replicate_add, run_append, hrun, List.replicate_add, run_append]
    rfl
  have hfinish := step_finish hq hql
  rw [finish] at hfinish
  by_cases hnone : q.decided = []
  · rw [if_pos hnone] at hfinish
    rw [hnone] at hdecided
    refine ⟨file.records.length + (1 + 0), ?_⟩
    rw [hsplit, List.replicate_zero, run_nil, hfinish, ← hdecided]
    exact ⟨(passes_setPass ..).trans (if_pos rfl), hfamily⟩
  · simp only [if_neg hnone, hqw, hqfile] at hfinish
    by_cases hfresh : q.held = 0
    · -- nothing is held, so everything is taken
      have hall : file.records.filter (Store.takes s.family) = file.records := by
        refine Store.ingest_filter_of_forall fun carried hmem => ?_
        rw [hheld, List.countP_eq_zero] at hfresh
        simpa using hfresh carried hmem
      rw [if_pos hfresh] at hfinish
      refine ⟨file.records.length + (1 + 0), ?_⟩
      rw [hsplit, List.replicate_zero, run_nil, hfinish, hall, ← hfamily]
      exact ⟨(passes_setPass ..).trans (if_pos rfl), rfl⟩
    · rw [if_neg hfresh] at hfinish
      have hnext : (t.step (.advance id)).passes id = some { walk := .second, file } := by
        rw [hfinish]
        exact (passes_setPass ..).trans (if_pos rfl)
      have hkept : (t.step (.advance id)).family = s.family := by
        rw [hfinish]
        exact hfamily
      obtain ⟨n, hsecond⟩ := run_second hnext
      rw [hkept] at hsecond
      exact ⟨file.records.length + (1 + n), by rw [hsplit]; exact hsecond⟩

/-- A clear that nothing comes between ends with what it clears deleted. -/
theorem run_clear (s : Shared) (id : ℕ) (file : SstFile) :
    ∃ n, (run step s (.startClear id file :: List.replicate n (.advance id))).passes id = none ∧
      (run step s (.startClear id file :: List.replicate n (.advance id))).family =
        Store.eraseAll s.family ((file.records.filter (Store.clears s.family)).map Prod.fst) := by
  have hp : (s.step (.startClear id file)).passes id = some { walk := .clear, file } :=
    (passes_setPass ..).trans (if_pos rfl)
  obtain ⟨t, q, hrun, htf, hq, hql, hqw, -, hqd, -⟩ := run_walk hp
  have hfamily : t.family = s.family := htf
  have hdecided : q.decided.map Decision.carried =
      file.records.filter (Store.clears s.family) := hqd
  have hfinish := step_finish hq hql
  rw [finish] at hfinish
  refine ⟨file.records.length + 1, ?_⟩
  rw [run_cons, List.replicate_succ', run_append, hrun, run_cons, run_nil, ← hdecided, ← hfamily,
    List.map_map]
  by_cases hnone : q.decided = []
  · rw [if_pos hnone] at hfinish
    rw [hfinish, hnone]
    exact ⟨(passes_setPass ..).trans (if_pos rfl), rfl⟩
  · simp only [if_neg hnone, hqw] at hfinish
    rw [hfinish]
    exact ⟨(passes_setPass ..).trans (if_pos rfl), rfl⟩

end Shared

namespace Store

variable {s : Store} {name : Bytes} {family : Family}

/-- **The calls of the store are runs of their steps that nothing comes between.** -/
theorem families_writeRecord (hfamily : s.disk.families[name]? = some family) (record : Record) :
    (after (writeRecord {} name record s)).disk.families[name]? =
      some (Shared.step { family } (.write record)).family := by
  change _ = some (Shared.write { family } record).family
  rw [writeRecord_eq hfamily, after_ok, Shared.write]
  dsimp only
  split_ifs
  · exact hfamily
  · rw [families_written]
    exact Std.ExtTreeMap.getElem?_insert_self

theorem families_importRecords (hfamily : s.disk.families[name]? = some family) (file : SstFile) :
    ∃ n, (run Shared.step { family } (.startImport 0 file :: List.replicate n (.advance 0))).passes
      0 =
        none ∧ (after (importRecords {} name file.records s)).disk.families[name]? = some
          (run Shared.step { family }
            (.startImport 0 file :: List.replicate n (.advance 0))).family := by
  obtain ⟨n, hended, hrun⟩ := Shared.run_import { family } 0 file
  refine ⟨n, hended, ?_⟩
  rw [hrun]
  by_cases hfile : file.records = []
  · rw [hfile]
    exact hfamily
  · obtain ⟨families, heq, hfamilies⟩ := importRecords_eq hfile hfamily
    rw [heq, after_ok]
    exact (hfamilies name).trans (if_pos rfl)

theorem families_clearRecords (hfamily : s.disk.families[name]? = some family) (file : SstFile) :
    ∃ n, (run Shared.step { family } (.startClear 0 file :: List.replicate n (.advance 0))).passes
      0 =
        none ∧ (after (clearRecords {} name file.records s)).disk.families[name]? = some
          (run Shared.step { family }
            (.startClear 0 file :: List.replicate n (.advance 0))).family := by
  obtain ⟨n, hended, hrun⟩ := Shared.run_clear { family } 0 file
  refine ⟨n, hended, ?_⟩
  rw [hrun]
  by_cases hfile : file.records = []
  · rw [hfile]
    exact hfamily
  · exact clearRecords_eq hfile hfamily

end Store

/-! ### Writes that land between -/

/-- A write of a key in a term. -/
def keyWrite (key : Bytes) (term : ℤ) : PassEvent := .write ⟨key, [], ⟨term, 1⟩⟩

/-- The record of a file that a write of the key in the term left on the node it was read from. -/
def keyCarried (key : Bytes) (term : ℤ) : Store.Carried :=
  (Store.storeKey key, Record.composeValue ⟨term, 1⟩ [])

theorem not_forward_of_replaced {s : Shared} {e : PassEvent} (key held value : Bytes)
    (hheld : s.family[key]? = some held) (hvalue : (s.step e).family[key]? = some value)
    (hnewer : Record.isNewer held value = true) : ¬Forward s e := by
  intro h
  have hkey := h key held hheld
  rw [hvalue] at hkey
  simp [hnewer] at hkey

theorem not_forward_of_deleted {s : Shared} {id : ℕ} (key held : Bytes)
    (records : List Store.Carried) (hheld : s.family[key]? = some held)
    (hnone : (s.step (.advance id)).family[key]? = none)
    (hfile : (s.passes id).map (·.file.records) = some records)
    (hnewer : ∀ carried ∈ records, Record.isNewer held carried.2 = true) :
    ¬Forward s (.advance id) := by
  intro h
  have hkey := h key held hheld
  rw [hnone] at hkey
  obtain ⟨other, p, carried, hother, hp, -, hmem, -, hnot⟩ := hkey
  obtain rfl : id = other := by injection hother
  rw [hp, Option.map_some, Option.some.injEq] at hfile
  simp [hnewer carried (hfile ▸ hmem)] at hnot

/-- Passes that are overtaken, of a file with the key `k` in term 1 and a write of the key in term
2: an import that found none of its keys held, one that found another of them, and a clear. -/
theorem not_forward_overtaken :
    let k := ascii "k"
    let j := ascii "j"
    let file : SstFile := ⟨[keyCarried k 1], by decide⟩
    let files : SstFile := ⟨[keyCarried j 3, keyCarried k 1], by decide +kernel⟩
    ¬Throughout Shared.step Forward {} [.startImport 0 file, .advance 0, keyWrite k 2, .advance 0] ∧
      ¬Throughout Shared.step Forward {} [keyWrite j 1, .startImport 0 files,
        .advance 0, .advance 0, .advance 0, .advance 0, .advance 0, keyWrite k 2, .advance 0] ∧
      ¬Throughout Shared.step Forward {}
        [keyWrite k 1, .startClear 0 file, .advance 0, keyWrite k 2, .advance 0] := by
  intro k j file files
  have hnewer : Record.isNewer (keyCarried k 2).2 (keyCarried k 1).2 = true := by decide +kernel
  refine ⟨fun h => ?_, fun h => ?_, fun h => ?_⟩
  · obtain ⟨-, -, -, hlast, -⟩ := h
    exact not_forward_of_replaced (Store.storeKey k) (keyCarried k 2).2 (keyCarried k 1).2
      (by decide +kernel) (by decide +kernel) hnewer hlast
  · obtain ⟨-, -, -, -, -, -, -, -, hlast, -⟩ := h
    exact not_forward_of_replaced (Store.storeKey k) (keyCarried k 2).2 (keyCarried k 1).2
      (by decide +kernel) (by decide +kernel) hnewer hlast
  · obtain ⟨-, -, -, -, hlast, -⟩ := h
    exact not_forward_of_deleted (Store.storeKey k) (keyCarried k 2).2 [keyCarried k 1]
      (by decide +kernel) (by decide +kernel) (by decide +kernel) (by simpa using hnewer) hlast

end AsyncDatabase
