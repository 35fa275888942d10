import AsyncDatabase.Walking
import AsyncDatabase.ZoneCopies

/-!
# What a walk brings

A walk of a share (`transfer::walk`) beside everything else that happens in a cluster, each of its
requests answered at a moment of its own. Until it has handed a record over, the record is still to
be read from its source or waits to be taken in (`ShareWalk.Brings`); a walk that turns out whole
has nothing left to bring.
-/

namespace AsyncDatabase

open Throwing

/-! ### A walk among others -/

/-- A walk of a share, over the pieces that the node it reads cut the table into. -/
structure ShareWalk where
  wanted : Share
  points : List Bytes
  transfer : Transfer (piecesOf points).length

namespace ShareWalk

/-- A walk as it starts, whatever files the node has and however many ways it is asked for. -/
def start (wanted : Share) (files : List StoreFile) (ways : ℕ) : ShareWalk where
  wanted
  points := splitPoints files ways
  transfer := Transfer.start _

/-- One piece of a round is answered, each at a moment of its own. -/
def answered (w : ShareWalk) (piece : ℕ) (source : Except Response Store) : ShareWalk :=
  if h : piece < (piecesOf w.points).length then
    let reading := w.transfer.pieces ⟨piece, h⟩
    if reading.going then
      { w with
        transfer := { w.transfer with
          pieces := Function.update w.transfer.pieces ⟨piece, h⟩ (carry reading
            (Transfer.answerOf w.wanted (n := (piecesOf w.points).length)
              reading.toPiece source)) } }
    else w
  else w

/-- The file that the taker of a piece hands over, unless one before it could not be taken in. -/
def handing (w : ShareWalk) (piece : ℕ) : Option (List Store.Carried) :=
  if h : piece < (piecesOf w.points).length then
    if w.transfer.failed then none else (w.transfer.pieces ⟨piece, h⟩).relay.head?
  else none

def taken (w : ShareWalk) (piece : ℕ) (throws : Bool) : ShareWalk :=
  if h : piece < (piecesOf w.points).length then
    { w with transfer := w.transfer.step w.wanted (.take ⟨piece, h⟩ throws) }
  else w

end ShareWalk

/-! ### What a store has at least -/

namespace Store

/-- A store has something for a key that is no older than this. -/
def Holds (s : Store) (table key : Bytes) (rank : ℕ) : Prop :=
  ∃ held, s.heldAt table (storeKey key) = some held ∧ rank ≤ storedRank held

theorem Holds.of_grows {s t : Store} {table key : Bytes} {rank : ℕ} (h : s.Holds table key rank)
    (hgrows : s.Grows t) : t.Holds table key rank := by
  obtain ⟨held, hheld, hle⟩ := h
  obtain ⟨now, hnow, hle'⟩ := hgrows table _ held hheld
  exact ⟨now, hnow, hle.trans hle'⟩

/-- What is ingested for a key is of the file, where the file has the key. -/
theorem getElem?_ingest_of_mem {file : List Carried} {family : Family} {key : Bytes}
    (h : ∃ carried ∈ file, carried.1 = key) :
    ∃ value, (ingest family file)[key]? = some value ∧ (key, value) ∈ file := by
  induction file generalizing family with
  | nil =>
    obtain ⟨_, hmem, -⟩ := h
    exact absurd hmem List.not_mem_nil
  | cons first file ih =>
    by_cases hlater : ∃ carried ∈ file, carried.1 = key
    · obtain ⟨value, hvalue, hmem⟩ := @ih (family.insert first.1 first.2) hlater
      exact ⟨value, hvalue, List.mem_cons_of_mem _ hmem⟩
    · have hfirst : first.1 = key := by
        obtain ⟨carried, hmem, hkey⟩ := h
        rcases List.mem_cons.mp hmem with rfl | hmem
        · exact hkey
        · exact absurd ⟨carried, hmem, hkey⟩ hlater
      have hin : key ∈ family.insert first.1 first.2 := by
        rw [← hfirst]
        exact Std.ExtTreeMap.mem_insert_self
      obtain ⟨value, hvalue⟩ := Option.isSome_iff_exists.mp
        (Std.ExtTreeMap.isSome_getElem?_iff_mem.mpr (mem_ingest_of_mem hin file))
      refine ⟨value, hvalue, ?_⟩
      rcases mem_of_getElem?_ingest hvalue with hmem | hsame
      · exact absurd ⟨_, hmem, rfl⟩ hlater
      · rw [← hfirst, Std.ExtTreeMap.getElem?_insert_self, Option.some.injEq] at hsame
        rw [← hsame, ← hfirst]
        exact List.mem_cons_self

/-- **A file that was imported is in the store**, as far as it was not there already. -/
theorem holds_importRecords {s t : Store} {table key : Bytes} {rank count : ℕ} {file : List Carried}
    (hrun : importRecords {} table file s = .ok count t)
    (hsome : ∃ carried ∈ file, carried.1 = storeKey key)
    (hrank : ∀ carried ∈ file, carried.1 = storeKey key → rank ≤ storedRank carried.2) :
    t.Holds table key rank := by
  obtain ⟨carried, hcarried, hkey⟩ := hsome
  have hfile : file ≠ [] := List.ne_nil_of_mem hcarried
  cases hfamily : s.disk.families[table]? with
  | none =>
    -- there is no such table, and the import throws
    unfold importRecords at hrun
    rw [if_neg hfile, run_bind, tableHandle, run_bind_get, hfamily] at hrun
    cases hrun
  | some family =>
    have hgrows := grows_importRecords s table file
    obtain ⟨families, heq, hfamilies⟩ := importRecords_eq hfile hfamily
    rw [hrun, after_ok] at hgrows
    rw [hrun] at heq
    -- the record is taken in, or is no newer than what is held
    by_cases htakes : takes family carried = true
    · have htaken : ∃ other ∈ file.filter (takes family), other.1 = storeKey key :=
        ⟨carried, List.mem_filter.mpr ⟨hcarried, htakes⟩, hkey⟩
      obtain ⟨value, hvalue, hmem⟩ := @getElem?_ingest_of_mem _ family _ htaken
      refine ⟨value, ?_, hrank _ (List.mem_of_mem_filter hmem) rfl⟩
      obtain ⟨-, rfl⟩ := EStateM.Result.ok.inj heq
      rw [heldAt]
      change (families[table]?).bind _ = _
      rw [hfamilies, if_pos rfl]
      exact hvalue
    · -- what is held is no older
      rw [takes, Option.all_eq_true, not_forall] at htakes
      obtain ⟨held, hno⟩ := htakes
      obtain ⟨hheld, hold⟩ := Classical.not_imp.mp hno
      rw [isNewer_iff_storedRank, not_lt] at hold
      refine Holds.of_grows ⟨held, ?_, (hrank carried hcarried hkey).trans hold⟩ hgrows
      rw [heldAt, hfamily, ← hkey]
      exact hheld

theorem Grows.of_families {s t : Store} (h : ∀ (name : Bytes) (family : Family),
    s.disk.families[name]? = some family → t.disk.families[name]? = some family) : s.Grows t := by
  intro name key value hheld
  obtain ⟨family, hfamily, hvalue⟩ := Option.bind_eq_some_iff.mp hheld
  refine ⟨value, ?_, le_rfl⟩
  rw [heldAt, h name family hfamily]
  exact hvalue

theorem grows_createTable (J : JsonCodec) (table : Table) (stamp : Version) (s : Store) :
    s.Grows (after (createTable J {} table stamp s)) := by
  have hmade : s.Grows ((s.withFamily table.name).setTables (s.tables.create table stamp)) := by
    refine Grows.of_families fun name family hfamily => ?_
    change (s.withFamily table.name).disk.families[name]? = _
    rw [getElem?_withFamily]
    split_ifs with hname
    · rw [← hname, hfamily]
      rfl
    · exact hfamily
  rcases createTable_cases J {} table stamp s with ⟨-, -, hrun⟩ | ⟨-, e, hrun⟩ | ⟨-, -, e, hrun⟩
  · rw [hrun]
    exact hmade
  · rw [hrun]
    exact Grows.refl s
  · rw [hrun]
    exact hmade

/-- A merge that drops no table keeps every record. -/
theorem grows_mergeSchema (J : JsonCodec) {named : Schema} {s : Store}
    (hlive : ∀ change ∈ (s.tables.merge named).2, change.live = true) :
    s.Grows (after (mergeSchema J {} named s)) := by
  have hopens : ∀ change ∈ (s.tables.merge named).2, AltersFamily {} s change := by
    intro change hchange
    rw [AltersFamily, if_pos (hlive change hchange)]
    exact .inr rfl
  rcases mergeSchema_cases J {} named s with ⟨-, hrun⟩ | ⟨⟨change, hchange, hno⟩, -⟩ | ⟨⟨-, hno⟩, -⟩
  · rw [hrun]
    refine Grows.of_families fun name family hfamily => ?_
    change (((s.tables.merge named).2.foldl altered
      (s.setTables (s.tables.merge named).1)).disk.families)[name]? = _
    rw [getElem?_foldl_altered _ (Schema.nodup_changes s.tables named)]
    split
    · exact hfamily
    · next change hfound =>
      rw [if_pos (hlive change (List.mem_of_find?_eq_some hfound)), disk_setTables, hfamily]
      rfl
  · exact absurd (hopens change hchange) hno
  · exact absurd rfl hno

end Store

/-! ### What a walk still brings -/

namespace ShareWalk

/-- What is known of a walk between two events. -/
structure Sound (w : ShareWalk) : Prop where
  ascend : w.points.Pairwise (· < ·)
  reads : ∀ i, Reads w.wanted (Transfer.piecesAt w.points i) (w.transfer.pieces i)

/-- What waits to be taken in has something for a key, and nothing older than this. -/
def Waits (file : List Store.Carried) (key : Bytes) (rank : ℕ) : Prop :=
  (∃ carried ∈ file, carried.1 = Store.storeKey key) ∧
    ∀ carried ∈ file, carried.1 = Store.storeKey key → rank ≤ storedRank carried.2

/-- A walk that turns out whole brings a key: the piece it is in has not got to it and the source
has it, or a file with it waits. -/
def Brings (w : ShareWalk) (source : Store) (key : Bytes) (rank : ℕ) : Prop :=
  w.transfer.failed = true ∨ ∃ i,
    ((w.transfer.pieces i).whole = false ∧ ((w.transfer.pieces i).going = true →
      (Transfer.piecesAt w.points i).Has (Store.storeKey key) ∧
        (w.transfer.pieces i).toPiece.After (Store.storeKey key) ∧
        source.Holds w.wanted.table key rank)) ∨
    ∃ file ∈ (w.transfer.pieces i).relay, Waits file key rank

variable {w : ShareWalk} {source : Store} {key : Bytes} {rank : ℕ}

theorem sound_start (wanted : Share) (files : List StoreFile) (ways : ℕ) :
    (start wanted files ways).Sound where
  ascend := ascend_splitPoints files ways
  reads := (Transfer.sound_start (nil_notMem_splitPoints files ways)).reads

/-- A walk that starts is to bring everything that its source has. -/
theorem brings_start (wanted : Share) (files : List StoreFile) (ways : ℕ)
    (h : source.Holds wanted.table key rank) :
    (start wanted files ways).Brings source key rank := by
  obtain ⟨i, ⟨piece, hpiece, hhas⟩, -⟩ :=
    piecesOf_cover (ascend_splitPoints files ways) (Store.storeKey key)
  obtain ⟨hlt, hget⟩ := List.getElem?_eq_some_iff.mp hpiece
  have hat : (Transfer.piecesAt (splitPoints files ways) ⟨i, hlt⟩).Has (Store.storeKey key) := by
    change ((piecesOf (splitPoints files ways))[i]).Has _
    rw [hget]
    exact hhas
  exact Or.inr ⟨⟨i, hlt⟩, Or.inl ⟨rfl, fun _ => ⟨hat, hat.1, h⟩⟩⟩

/-- What a walk brings it brings from a source that has as much of the key. -/
theorem Brings.mono {other : Store} (h : w.Brings source key rank)
    (hsource : source.Holds w.wanted.table key rank → other.Holds w.wanted.table key rank) :
    w.Brings other key rank := by
  rcases h with hfailed | ⟨i, ⟨hwhole, hgoing⟩ | hwaits⟩
  · exact Or.inl hfailed
  · refine Or.inr ⟨i, Or.inl ⟨hwhole, fun hgoes => ?_⟩⟩
    obtain ⟨hhas, hafter, hholds⟩ := hgoing hgoes
    exact ⟨hhas, hafter, hsource hholds⟩
  · exact Or.inr ⟨i, Or.inr hwaits⟩

/-- A piece that is answered is one that was asked for. -/
theorem answered_cases (w : ShareWalk) (piece : ℕ) (answer : Except Response Store) :
    w.answered piece answer = w ∨ ∃ i, (w.transfer.pieces i).going = true ∧
      w.answered piece answer =
        { w with
          transfer := { w.transfer with
            pieces := Function.update w.transfer.pieces i (carry (w.transfer.pieces i)
              (Transfer.answerOf w.wanted (n := (piecesOf w.points).length)
                (w.transfer.pieces i).toPiece answer)) } } := by
  unfold answered
  split_ifs with hpiece
  · dsimp only
    split_ifs with hgoing
    · exact Or.inr ⟨⟨piece, hpiece⟩, hgoing, rfl⟩
    · exact Or.inl rfl
  · exact Or.inl rfl

@[simp] theorem wanted_answered (w : ShareWalk) (piece : ℕ) (answer : Except Response Store) :
    (w.answered piece answer).wanted = w.wanted := by
  rcases answered_cases w piece answer with hsame | ⟨i, -, hanswered⟩
  · rw [hsame]
  · rw [hanswered]

/-- What an answer leaves of the piece it belongs to. -/
theorem Sound.carry_cases (h : w.Sound) (i : Fin (piecesOf w.points).length)
    (answer : Except Response Store) : carry (w.transfer.pieces i)
        (Transfer.answerOf w.wanted (n := (piecesOf w.points).length)
          (w.transfer.pieces i).toPiece answer) =
      { w.transfer.pieces i with going := false, refused := true } ∨
    ∃ s family, answer = .ok s ∧ s.disk.families[w.wanted.table]? = some family ∧
      Answered (w.transfer.pieces i)
        (fileOf w.wanted (piecesOf w.points).length (w.transfer.pieces i).toPiece family)
        (carry (w.transfer.pieces i) (Transfer.answerOf w.wanted (n := (piecesOf w.points).length)
          (w.transfer.pieces i).toPiece answer)) :=
  (AsyncDatabase.carry_cases (h.reads i).after_ne (h.reads i).upTo_ne answer).imp And.left id

theorem Sound.answered (h : w.Sound) (piece : ℕ) (answer : Except Response Store) :
    (w.answered piece answer).Sound := by
  rcases answered_cases w piece answer with hsame | ⟨i, -, hanswered⟩
  · rw [hsame]
    exact h
  · rw [hanswered]
    refine ⟨h.ascend, fun (j : Fin (piecesOf w.points).length) => ?_⟩
    dsimp only
    by_cases hj : j = i
    · subst hj
      rw [Function.update_self]
      rcases h.carry_cases j answer with hrefused | ⟨s, family, -, -, ha⟩
      · rw [hrefused]
        exact (h.reads j).refused
      · exact (h.reads j).answered ha
    · rw [Function.update_of_ne hj]
      exact h.reads j

/-- A file has what its source has of the keys it gets to. -/
theorem waits_fileOf {wanted : Share} {n : ℕ} {piece : Piece} {family : Family} {s : Store}
    (hfamily : s.disk.families[wanted.table]? = some family)
    (hholds : s.Holds wanted.table key rank) (hshare : partitionOf key ∈ wanted.partitions)
    (hhas : piece.Has (Store.storeKey key))
    (hlast : (fileOf wanted n piece family).hasMore = true →
      ¬(fileOf wanted n piece family).last < Store.storeKey key) :
    Waits (fileOf wanted n piece family).file key rank := by
  obtain ⟨value, hvalue, hle⟩ := hholds
  rw [Store.heldAt, hfamily, Option.bind_some] at hvalue
  refine ⟨⟨_, mem_fileOf_iff.mpr
    ⟨value, hvalue, rfl, Store.inShare_storeKey_iff.mpr hshare, hhas, hlast⟩,
    rfl⟩, fun carried hcarried hkey => ?_⟩
  obtain ⟨other, hother, hcarries, -⟩ :=
    mem_fileOf_iff.mp (show (carried.1, carried.2) ∈ _ from hcarried)
  rw [hkey, hvalue] at hother
  obtain rfl := Option.some.inj hother
  rw [← congrArg Prod.snd hcarries]
  refine hle.trans (le_of_eq ?_)
  change storedRank value = storedRank (if _ then _ else _)
  split_ifs
  · rfl
  · exact (storedRank_take value).symm

/-- **An answer takes away nothing that a walk is to bring.** -/
theorem Brings.answered (h : w.Brings source key rank) (hsound : w.Sound)
    (hshare : partitionOf key ∈ w.wanted.partitions) (piece : ℕ)
    {answer : Except Response Store} (hanswer : ∀ s, answer = .ok s → s = source) :
    (w.answered piece answer).Brings source key rank := by
  rcases answered_cases w piece answer with hsame | ⟨i, hgoing, hanswered⟩
  · rw [hsame]
    exact h
  rw [hanswered]
  rcases h with hfailed | ⟨j, hbrings⟩
  · exact Or.inl hfailed
  refine Or.inr ⟨j, ?_⟩
  dsimp only
  by_cases hj : j = i
  swap
  · rw [Function.update_of_ne hj]
    exact hbrings
  subst hj
  rw [Function.update_self]
  rcases hsound.carry_cases j answer with hrefused | ⟨s, family, hs, hfamily, ha⟩
  · -- a piece that is refused is never whole
    rw [hrefused]
    rcases hbrings with ⟨hwhole, -⟩ | hwaits
    · exact Or.inl ⟨hwhole, fun hno => Bool.noConfusion hno⟩
    · exact Or.inr hwaits
  · rcases hbrings with ⟨hwhole, hgoes⟩ | ⟨file, hfile, hwaits⟩
    swap
    · -- what waits in the relay waits on
      refine Or.inr ⟨file, ?_, hwaits⟩
      rw [ha.relay]
      exact List.mem_append_left _ hfile
    · obtain ⟨hhas, hafter, hholds⟩ := hgoes hgoing
      obtain rfl := hanswer s hs
      have hin : (w.transfer.pieces j).toPiece.Has (Store.storeKey key) := by
        refine ⟨hafter, ?_⟩
        rw [(hsound.reads j).upTo]
        exact hhas.2
      by_cases hlast :
        (fileOf w.wanted (piecesOf w.points).length (w.transfer.pieces j).toPiece family).hasMore =
          true → ¬(fileOf w.wanted (piecesOf w.points).length
            (w.transfer.pieces j).toPiece family).last < Store.storeKey key
      · -- the file reaches the key
        refine Or.inr ⟨_, ?_, waits_fileOf hfamily hholds hshare hin hlast⟩
        rw [ha.relay]
        exact List.mem_append_right _ (List.mem_singleton_self _)
      · -- the file ends before the key, and the piece goes on from there
        obtain ⟨hmore, hbehind⟩ := Classical.not_imp.mp hlast
        rw [not_not] at hbehind
        obtain ⟨hnow, -, hstill⟩ := ha.more hmore
        refine Or.inl ⟨hstill.trans hwhole, fun _ => ⟨hhas, fun bound hbound => ?_, hholds⟩⟩
        rw [hnow, Option.some.injEq] at hbound
        rw [← hbound]
        exact hbehind

/-- What is taken from a piece is the first file that waits, which is handed over unless one before
it could not be taken in. -/
theorem taken_cases (w : ShareWalk) (piece : ℕ) (throws : Bool) :
    w.taken piece throws = w ∨ ∃ i file rest, (w.transfer.pieces i).relay = file :: rest ∧
      (w.handing piece = some file ∨ w.transfer.failed = true) ∧
      ∃ transfer, w.taken piece throws = { w with transfer } ∧
        transfer.pieces =
          Function.update w.transfer.pieces i { w.transfer.pieces i with relay := rest } ∧
        transfer.failed = (w.transfer.failed || throws) := by
  unfold taken handing
  split_ifs with hpiece hfailed
  · rcases @Transfer.take_cases w.wanted _ w.transfer ⟨piece, hpiece⟩ throws with
      hsame | ⟨file, rest, hrelay, hpieces, ⟨-, hstill, -⟩ | ⟨hno, -, -⟩⟩
    · rw [hsame]
      exact Or.inl rfl
    · refine Or.inr ⟨_, file, rest, hrelay, Or.inr hfailed, _, rfl, hpieces, ?_⟩
      rw [hstill, hfailed, Bool.true_or]
    · exact absurd (hno.symm.trans hfailed) (by decide)
  · rcases @Transfer.take_cases w.wanted _ w.transfer ⟨piece, hpiece⟩ throws with
      hsame | ⟨file, rest, hrelay, hpieces, ⟨hyes, -, -⟩ | ⟨hno, hthrows, -⟩⟩
    · rw [hsame]
      exact Or.inl rfl
    · exact absurd hyes hfailed
    · refine Or.inr ⟨_, file, rest, hrelay, Or.inl (by rw [hrelay]; rfl), _, rfl, hpieces, ?_⟩
      rw [hthrows, hno, Bool.false_or]
  · exact Or.inl rfl

@[simp] theorem wanted_taken (w : ShareWalk) (piece : ℕ) (throws : Bool) :
    (w.taken piece throws).wanted = w.wanted := by
  rcases taken_cases w piece throws with hsame | ⟨i, file, rest, -, -, transfer, htaken, -⟩
  · rw [hsame]
  · rw [htaken]

theorem Sound.taken (h : w.Sound) (piece : ℕ) (throws : Bool) : (w.taken piece throws).Sound := by
  rcases taken_cases w piece throws with hsame | ⟨i, file, rest, hrelay, -,
    transfer, htaken, hpieces, -⟩
  · rw [hsame]
    exact h
  · rw [htaken]
    refine ⟨h.ascend, fun (j : Fin (piecesOf w.points).length) => ?_⟩
    dsimp only
    rw [hpieces]
    by_cases hj : j = i
    · subst hj
      rw [Function.update_self]
      have hr := h.reads j
      exact ⟨hr.upTo, hr.after, hr.after_ne, hr.upTo_ne, hr.ended, fun other hother =>
        hr.relay other (hrelay ▸ List.mem_cons_of_mem _ hother)⟩
    · rw [Function.update_of_ne hj]
      exact h.reads j

/-- What a walk is to bring it is to bring still, but for what the file has that is taken. -/
theorem Brings.taken (h : w.Brings source key rank) (piece : ℕ) (throws : Bool) :
    (w.taken piece throws).Brings source key rank ∨
      throws = false ∧ ∃ file, w.handing piece = some file ∧ Waits file key rank := by
  rcases taken_cases w piece throws with
    hsame | ⟨i, file, rest, hrelay, hhanded, transfer, htaken, hpieces, hfails⟩
  · rw [hsame]
    exact Or.inl h
  rw [htaken]
  rcases h with hfailed | ⟨j, hbrings⟩
  · -- a walk that failed stays so
    refine Or.inl (Or.inl ?_)
    rw [hfails, hfailed, Bool.true_or]
  by_cases hj : j = i
  swap
  · refine Or.inl (Or.inr ⟨j, ?_⟩)
    dsimp only
    rw [hpieces, Function.update_of_ne hj]
    exact hbrings
  subst hj
  rcases hbrings with hgoes | ⟨other, hother, hwaits⟩
  · -- the piece still goes on to the key
    refine Or.inl (Or.inr ⟨j, Or.inl ?_⟩)
    dsimp only
    rw [hpieces, Function.update_self]
    exact hgoes
  · rw [hrelay] at hother
    rcases List.mem_cons.mp hother with rfl | hlater
    · -- the file itself: it is handed over, and is not lost unless the walk fails
      rcases hhanded with hhanding | hfailed
      · cases throws with
        | false => exact Or.inr ⟨rfl, other, hhanding, hwaits⟩
        | true =>
          refine Or.inl (Or.inl ?_)
          rw [hfails, Bool.or_true]
      · refine Or.inl (Or.inl ?_)
        rw [hfails, hfailed, Bool.true_or]
    · refine Or.inl (Or.inr ⟨j, Or.inr ⟨other, ?_, hwaits⟩⟩)
      dsimp only
      rw [hpieces, Function.update_self]
      exact hlater

/-- A walk that was whole has nothing left to bring. -/
theorem not_brings_of_whole (hjoined : w.transfer.Joined) (hwhole : w.transfer.whole = true) :
    ¬w.Brings source key rank := by
  obtain ⟨hfailed, hpieces⟩ := of_decide_eq_true hwhole
  rintro (hyes | ⟨i, ⟨hno, -⟩ | ⟨file, hfile, -⟩⟩)
  · exact absurd (hfailed.symm.trans hyes) (by decide)
  · exact absurd (hno.symm.trans (hpieces i)) (by decide)
  · rw [hjoined i] at hfile
    exact absurd hfile List.not_mem_nil

end ShareWalk


end AsyncDatabase
